import StreamFanout.Proofs.Delivery.Exchange

/-!
What the journal of an exchange tells of each call. A call is sent at most once, and not at all when
it is refused or given up or still waits.
-/
namespace StreamFanout

/-- All that is told of the call with number `n`. A push that was not sent is not accepted. -/
inductive Story (n : Nat) (call : SinkCall) (waiting : Prop) : List Incident → Prop
  | waits (hw : waiting) : Story n call waiting [.begun n call]
  | givenUp (hw : ¬waiting) : Story n call waiting [.begun n call, .givenUp n]
  | unsent (byHost : Bool) (answer : Answer) (hw : ¬waiting)
      (ha : ∀ c u, call = .push c u → answer ≠ .accepted) :
      Story n call waiting [.begun n call, .returned n byHost call answer]
  | sent (byHost : Bool) (k : Nat) (hw : ¬waiting) : Story n call waiting
      [.begun n call, .sent n call k, .returned n byHost call .accepted]

theorem Story.congr {n : Nat} {call : SinkCall} {waiting waiting' : Prop}
    {incidents : List Incident} (hw : waiting ↔ waiting') (h : Story n call waiting incidents) :
    Story n call waiting' incidents := by
  rwa [← propext hw]

namespace Exchange

variable {x : Exchange} {journal : List Incident} {ticket : Nat} {h : Held}

def Holds (x : Exchange) (n : Nat) : Prop :=
  ∃ ticket h, x.held ticket = some h ∧ h.number = n

/-- The journal tells one story of each call. -/
structure Told (x : Exchange) (journal : List Incident) : Prop where
  held_lt : ∀ t h, x.held t = some h → h.number < x.begun
  held_inj : ∀ t t' h h', x.held t = some h → x.held t' = some h' → h.number = h'.number → t = t'
  held_story : ∀ t h, x.held t = some h →
    journal.filter (·.number? = some h.number) = [.begun h.number h.call]
  ahead : ∀ n, x.begun ≤ n → journal.filter (·.number? = some n) = []
  story : ∀ n < x.begun, ∃ call, Story n call (x.Holds n) (journal.filter (·.number? = some n))

theorem told_fresh (capacity : Nat) : (ofCapacity capacity).Told [] where
  held_lt t h hh := by cases hh
  held_inj t t' h h' hh := by cases hh
  held_story t h hh := by cases hh
  ahead n _ := rfl
  story n hn := absurd hn (Nat.not_lt_zero n)

theorem filter_append_of_number {incidents : List Incident} {m : Option Nat}
    (hi : ∀ i ∈ incidents, i.number? = m) (journal : List Incident) (n : Nat) :
    (journal ++ incidents).filter (·.number? = some n) =
      journal.filter (·.number? = some n) ++ if m = some n then incidents else [] := by
  rw [List.filter_append]
  congr 1
  split
  · next hm => exact List.filter_eq_self.mpr fun i him => decide_eq_true (hm ▸ hi i him)
  · next hm =>
    refine List.filter_eq_nil_iff.mpr fun i him hd => hm ?_
    exact (hi i him).symm.trans (of_decide_eq_true hd)

/-- Incidents that are about no call tell nothing of any. -/
theorem Told.quiet (ht : x.Told journal) {incidents : List Incident}
    (hi : ∀ i ∈ incidents, i.number? = none) (board : Switchboard) :
    Told { x with board } (journal ++ incidents) := by
  have hfilter (n : Nat) : (journal ++ incidents).filter (·.number? = some n) =
      journal.filter (·.number? = some n) := by
    rw [filter_append_of_number hi, if_neg nofun, List.append_nil]
  exact {
    held_lt := ht.held_lt
    held_inj := ht.held_inj
    held_story := fun t h hh => (hfilter _).trans (ht.held_story t h hh)
    ahead := fun n hn => (hfilter n).trans (ht.ahead n hn)
    story := fun n hn => by
      rw [hfilter]
      exact ht.story n hn }

theorem holds_hold (hn : x.held ticket = none) (n : Nat) :
    (x.hold ticket h).Holds n ↔ n = h.number ∨ x.Holds n := by
  constructor
  · rintro ⟨t, g, hg, rfl⟩
    rcases held_hold_iff.mp hg with ⟨-, rfl⟩ | ⟨-, hg⟩
    · exact .inl rfl
    · exact .inr ⟨t, g, hg, rfl⟩
  · rintro (rfl | ⟨t, g, hg, rfl⟩)
    · exact ⟨ticket, h, held_hold_iff.mpr (.inl ⟨rfl, rfl⟩), rfl⟩
    · refine ⟨t, g, held_hold_iff.mpr (.inr ⟨?_, hg⟩), rfl⟩
      rintro rfl
      cases hn.symm.trans hg

/-- The next call begins: its story is that it waits. -/
theorem Told.hold (ht : x.Told journal) (hn : x.held ticket = none) (hb : h.number = x.begun) :
    (x.hold ticket h).Told (journal ++ [Incident.begun h.number h.call]) := by
  have hnew (t : Nat) (g : Held) (hg : x.held t = some g) : g.number ≠ h.number :=
    hb ▸ Nat.ne_of_lt (ht.held_lt t g hg)
  have hfilter (n : Nat) :
      (journal ++ [Incident.begun h.number h.call]).filter (·.number? = some n) =
        journal.filter (·.number? = some n) ++
          if some h.number = some n then [Incident.begun h.number h.call] else [] :=
    filter_append_of_number (fun i hi => List.mem_singleton.mp hi ▸ rfl) journal n
  -- Calls are numbered as they begin, so nothing has been told of this number.
  have hbegun : (journal ++ [Incident.begun h.number h.call]).filter
      (·.number? = some h.number) = [Incident.begun h.number h.call] := by
    rw [hfilter, ht.ahead _ (Nat.le_of_eq hb.symm), if_pos rfl]
    rfl
  have hother {n : Nat} (hne : n ≠ h.number) :
      (journal ++ [Incident.begun h.number h.call]).filter (·.number? = some n) =
        journal.filter (·.number? = some n) := by
    rw [hfilter, if_neg fun he => hne (Option.some.inj he).symm, List.append_nil]
  constructor
  · intro t g hg
    show g.number < x.begun + 1
    rcases held_hold_iff.mp hg with ⟨-, rfl⟩ | ⟨-, hg⟩
    · exact hb ▸ Nat.lt_succ_self _
    · exact Nat.lt_succ_of_lt (ht.held_lt t g hg)
  · intro t t' g g' hg hg' he
    rcases held_hold_iff.mp hg with ⟨htt, rfl⟩ | ⟨-, hold⟩
    · rcases held_hold_iff.mp hg' with ⟨htt', -⟩ | ⟨-, hold'⟩
      · exact htt.trans htt'.symm
      · exact absurd he.symm (hnew t' g' hold')
    · rcases held_hold_iff.mp hg' with ⟨-, rfl⟩ | ⟨-, hold'⟩
      · exact absurd he (hnew t g hold)
      · exact ht.held_inj t t' g g' hold hold' he
  · intro t g hg
    rcases held_hold_iff.mp hg with ⟨-, rfl⟩ | ⟨-, hg⟩
    · exact hbegun
    · rw [hother (hnew t g hg)]
      exact ht.held_story t g hg
  · intro n hle
    have hle : x.begun < n := hle
    rw [hother (Nat.ne_of_gt (hb ▸ hle))]
    exact ht.ahead n (Nat.le_of_lt hle)
  · intro n hlt
    by_cases hne : n = h.number
    · rw [hne, hbegun]
      exact ⟨h.call, .waits ((holds_hold hn _).mpr (.inl rfl))⟩
    · obtain ⟨call, hs⟩ := ht.story n (Nat.lt_of_le_of_ne (Nat.le_of_lt_succ hlt) (hb ▸ hne))
      rw [hother hne]
      refine ⟨call, hs.congr ⟨fun hw => (holds_hold hn n).mpr (.inr hw), fun hw => ?_⟩⟩
      exact ((holds_hold hn n).mp hw).resolve_left hne

/-- No other call has the number of a call that waits. -/
theorem Told.holds_free (ht : x.Told journal) (hh : x.held ticket = some h) (board : Switchboard)
    (n : Nat) : Holds { x with board, held := Function.update x.held ticket none } n ↔
      n ≠ h.number ∧ x.Holds n := by
  constructor
  · rintro ⟨t, g, hg, rfl⟩
    obtain ⟨htt, hg⟩ := held_free_iff.mp hg
    exact ⟨fun he => htt (ht.held_inj t ticket g h hg hh he), t, g, hg, rfl⟩
  · rintro ⟨hne, t, g, hg, rfl⟩
    refine ⟨t, g, held_free_iff.mpr ⟨?_, hg⟩, rfl⟩
    rintro rfl
    cases hh.symm.trans hg
    exact hne rfl

/-- A call that waits comes to its end. -/
theorem Told.close (ht : x.Told journal) (hh : x.held ticket = some h) {incidents : List Incident}
    (hi : ∀ i ∈ incidents, i.number? = some h.number)
    (hs : Story h.number h.call False (.begun h.number h.call :: incidents))
    (board : Switchboard) :
    Told { x with board, held := Function.update x.held ticket none } (journal ++ incidents) := by
  have hholds := ht.holds_free hh board
  have hother {n : Nat} (hne : n ≠ h.number) :
      (journal ++ incidents).filter (·.number? = some n) =
        journal.filter (·.number? = some n) := by
    rw [filter_append_of_number hi, if_neg fun he => hne (Option.some.inj he).symm,
      List.append_nil]
  constructor
  · exact fun t g hg => ht.held_lt t g (held_free_iff.mp hg).2
  · exact fun t t' g g' hg hg' =>
      ht.held_inj t t' g g' (held_free_iff.mp hg).2 (held_free_iff.mp hg').2
  · intro t g hg
    rw [hother ((hholds g.number).mp ⟨t, g, hg, rfl⟩).1]
    exact ht.held_story t g (held_free_iff.mp hg).2
  · intro n hle
    have hle : x.begun ≤ n := hle
    rw [hother (Nat.ne_of_gt (Nat.lt_of_lt_of_le (ht.held_lt ticket h hh) hle))]
    exact ht.ahead n hle
  · intro n hlt
    by_cases hne : n = h.number
    · rw [hne, filter_append_of_number hi, if_pos rfl, ht.held_story ticket h hh]
      exact ⟨h.call, hs.congr ⟨False.elim, fun hw => ((hholds _).mp hw).1 rfl⟩⟩
    · obtain ⟨call, hstory⟩ := ht.story n hlt
      rw [hother hne]
      exact ⟨call, hstory.congr
        ⟨fun hw => (hholds n).mpr ⟨hne, hw⟩, fun hw => ((hholds n).mp hw).2⟩⟩

theorem consumerGone_ne_accepted (call : SinkCall) (c : Channel) (u : AccessUnit)
    (hc : call = .push c u) : call.consumerGone.value ≠ .accepted := by
  subst hc
  exact nofun

theorem unrouted_ne_accepted (call : SinkCall) (c : Channel) (u : AccessUnit)
    (hc : call = .push c u) : call.unrouted ≠ .accepted := by
  subst hc
  exact nofun

theorem Told.conclude (ht : x.Told journal) (hh : x.held ticket = some h)
    (r : SendResult × Switchboard) :
    (x.conclude ticket h r).2.Told (journal ++ (x.conclude ticket h r).1) := by
  obtain ⟨result, board⟩ := r
  cases result with
  | sent =>
    refine ht.close hh ?_ (.sent h.byHost h.queue id) board
    intro i hi
    rcases List.mem_pair.mp hi with rfl | rfl
    · rfl
    · rfl
  | refused =>
    refine ht.close hh ?_ (.unsent h.byHost _ id (consumerGone_ne_accepted h.call)) board
    intro i hi
    exact List.mem_singleton.mp hi ▸ rfl
  | waiting =>
    have hsame : Function.update x.held ticket (some h) = x.held :=
      Function.update_eq_self_iff.mpr hh.symm
    have hq : Told { x with board } (journal ++ []) := ht.quiet (fun i hi => by cases hi) board
    show Told { x with board, held := Function.update x.held ticket (some h) } (journal ++ [])
    rw [hsame]
    exact hq

/-- A call that finds no queue begins and returns at once. -/
theorem Told.unrouted (ht : x.Told journal) (hn : x.held ticket = none) (byHost : Bool)
    (call : SinkCall) : Told { x with begun := x.begun + 1 }
      (journal ++ [.begun x.begun call, .returned x.begun byHost call call.unrouted]) := by
  have hb := ht.hold (h := ⟨x.begun, 0, byHost, call⟩) hn rfl
  have hc := hb.close (Function.update_self ..)
    (fun i hi => List.mem_singleton.mp hi ▸ rfl)
    (.unsent byHost _ id (unrouted_ne_accepted call)) x.board
  have hheld : Function.update (Function.update x.held ticket
      (some ⟨x.begun, 0, byHost, call⟩)) ticket none = x.held := by
    rw [Function.update_idem]
    exact Function.update_eq_self_iff.mpr hn.symm
  rw [List.append_assoc, List.singleton_append] at hc
  simpa only [Exchange.hold, hheld] using hc

theorem Told.act (ht : x.Told journal) (a : Act) :
    (x.act a).2.Told (journal ++ (x.act a).1) := by
  have hx := x.takes_act a
  generalize x.act a = r at hx
  cases hx with
  | attach c => exact ht.quiet (fun i hi => List.mem_singleton.mp hi ▸ rfl) _
  | detach c => exact ht.quiet (fun i hi => List.mem_singleton.mp hi ▸ rfl) _
  | unrouted t byHost call hh hr => exact ht.unrouted hh byHost call
  | call t byHost call k hh hr r hc =>
    subst hc
    have hb := ht.hold (h := ⟨x.begun, k, byHost, call⟩) hh rfl
    have hc := hb.conclude (Function.update_self ..) (x.board.sendBy k (·.offer t call.event))
    rwa [List.append_assoc] at hc
  | retry t h hh => exact ht.conclude hh _
  | giveUp t h hh =>
    exact ht.close hh (fun i hi => List.mem_singleton.mp hi ▸ rfl) (.givenUp id) _
  | receive queue =>
    refine ht.quiet (fun i hi => ?_) _
    obtain ⟨e, -, rfl⟩ := List.mem_map.mp hi
    rfl
  | busy | void | close | drop => exact ht.quiet (fun i hi => by cases hi) _

end Exchange

end StreamFanout
