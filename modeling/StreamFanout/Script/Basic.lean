import StreamFanout.Fanout

/-!
A sink that follows a script. A rule fires on a call that it matches, at most as often as it has
firings left; it makes the host act on the fanout from inside the call and may refuse the push.
The first rule that matches and may still fire decides.
-/

namespace StreamFanout

inductive HostAction where
  | call (call : HostCall)
  | endStream
  deriving DecidableEq

inductive RefusalKind where
  | notFound
  | closed
  | rejected (reason : String)
  deriving DecidableEq, Repr

def RefusalKind.on (channel : Channel) : RefusalKind → Refusal
  | notFound => .channelNotFound channel
  | closed => .channelClosed channel
  | rejected reason => .rejected reason

/-- A rule of a script. A condition that is absent always holds. -/
structure Rule where
  /-- The rule is for ends of stream, otherwise for pushes. -/
  onEnd : Bool := false
  channel : Option Channel := none
  /-- Presentation time of the pushed unit. -/
  pts : Option UInt64 := none
  /-- Number of the push among all pushes on this sink. -/
  nth : Option Nat := none
  /-- How often the rule may still fire. -/
  firings : Nat := 1
  actions : List HostAction := []
  refusal : Option RefusalKind := none

def holdsOf {α : Type} [DecidableEq α] (condition : Option α) (a : α) : Bool :=
  match condition with
  | some x => x = a
  | none => true

def Rule.isAbout (r : Rule) (nth : Nat) : SinkCall → Bool
  | .push channel unit =>
    !r.onEnd && holdsOf r.channel channel && holdsOf r.pts unit.pts && holdsOf r.nth nth
  | .endOfStream channel => r.onEnd && holdsOf r.channel channel

def Rule.answer (r : Rule) : SinkCall → Answer
  | .push channel _ =>
    match r.refusal with
    | some kind => .refused (kind.on channel)
    | none => .accepted
  | .endOfStream _ => .accepted

/-- The rules of a sink and the number of pushes it has seen. -/
structure Script where
  rules : List Rule := []
  pushes : Nat := 0
  /-- Ends of stream are shown to the host. -/
  showsEnds : Bool := true

namespace Script

def firingsLeft (rules : List Rule) : Nat :=
  sumOf Rule.firings rules

def fire (nth : Nat) (call : SinkCall) : List Rule → Option (Rule × List Rule)
  | [] => none
  | r :: rules =>
    if 0 < r.firings ∧ r.isAbout nth call then
      some (r, { r with firings := r.firings - 1 } :: rules)
    else
      (fire nth call rules).map fun (fired, rules) => (fired, r :: rules)

def countPush (s : Script) : SinkCall → Nat
  | .push .. => s.pushes + 1
  | .endOfStream _ => s.pushes

/-- What the sink does with a call: the host's actions inside it, and the answer. -/
def react (s : Script) (call : SinkCall) : (List HostAction × Answer) × Script :=
  match fire s.pushes call s.rules with
  | some (r, rules) => ((r.actions, r.answer call), { s with rules, pushes := s.countPush call })
  | none => (([], .accepted), { s with pushes := s.countPush call })

theorem firingsLeft_fire {nth : Nat} {call : SinkCall} {rules rules' : List Rule} {fired : Rule}
    (h : fire nth call rules = some (fired, rules')) : firingsLeft rules' < firingsLeft rules := by
  induction rules generalizing rules' with
  | nil => simp [fire] at h
  | cons r rules ih =>
    rw [fire] at h
    split at h
    · next hr =>
      obtain ⟨rfl, rfl⟩ := Prod.mk.inj (Option.some.inj h)
      simp only [firingsLeft, sumOf_cons]
      omega
    · obtain ⟨⟨fired', rules''⟩, hf, heq⟩ := Option.map_eq_some_iff.mp h
      obtain ⟨rfl, rfl⟩ := Prod.mk.inj heq
      have := ih hf
      simp only [firingsLeft, sumOf_cons] at this ⊢
      omega

/-- A reaction uses up a firing, or it has no actions. -/
theorem firingsLeft_react (s : Script) (call : SinkCall) :
    firingsLeft (s.react call).2.rules < firingsLeft s.rules ∨
      firingsLeft (s.react call).2.rules = firingsLeft s.rules ∧ (s.react call).1.1 = [] := by
  rw [react]
  split
  · next h => exact Or.inl (firingsLeft_fire h)
  · exact Or.inr ⟨rfl, rfl⟩

end Script

end StreamFanout
