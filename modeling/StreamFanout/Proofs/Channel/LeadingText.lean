import StreamFanout.Fanout
import StreamFanout.Proofs.Channel.Names

/-!
The leading text of a channel name. No index has an underscore in it, so a name ends in its index
behind the last underscore, and whatever stands before that is the only leading text under which
it is read. A fanout thus takes the names of another leading text for names of no channel.
-/
namespace StreamFanout

section

variable {α : Type} {s : α} {xs ys ds es : List α}

theorem eq_nil_of_cons_eq_append_cons (hd : s ∉ ds) (h : s :: ds = xs ++ s :: es) : xs = [] := by
  cases xs with
  | nil => rfl
  | cons x xs =>
    rw [(List.cons.inj h).2] at hd
    simp at hd

/-- A list has only one last separator. -/
theorem last_separator_unique (hd : s ∉ ds) (he : s ∉ es) (h : xs ++ s :: ds = ys ++ s :: es) :
    xs = ys ∧ ds = es := by
  -- If one of the two stood further back, it would be among what stands behind the other.
  have hxs : xs = ys := by
    rcases List.append_eq_append_iff.mp h with ⟨between, rfl, hb⟩ | ⟨between, rfl, hb⟩
    · rw [eq_nil_of_cons_eq_append_cons hd hb, List.append_nil]
    · rw [eq_nil_of_cons_eq_append_cons he hb, List.append_nil]
  subst hxs
  exact ⟨rfl, (List.cons.inj (List.append_cancel_left h)).2⟩

end

namespace Channel

variable {lead lead' name : String} {c d : Channel}

/-- No underscore stands among the digits of an index and the zeros in front of it. -/
theorem underscore_notMem_index (zeros : Nat) (c : Channel) :
    '_' ∉ List.replicate zeros '0' ++ Decimal.digits c.index.toNat := by
  intro h
  rcases List.mem_append.mp h with h | h
  · exact absurd (List.eq_of_mem_replicate h) (by decide)
  · exact Decimal.notMem_digits (by decide) _ h

/-- A name is read under one leading text only, and so as one channel only. -/
theorem ofName?_unique (h : ofName? lead name = some c) (h' : ofName? lead' name = some d) :
    lead = lead' ∧ c = d := by
  obtain ⟨zeros, hname⟩ := ofName?_eq_some_iff.mp h
  obtain ⟨zeros', hname'⟩ := ofName?_eq_some_iff.mp h'
  have hlist : (c.paddedName lead zeros).toList = (d.paddedName lead' zeros').toList :=
    congrArg String.toList (hname.symm.trans hname')
  rw [toList_paddedName, toList_paddedName] at hlist
  have hlead := (last_separator_unique (underscore_notMem_index zeros c)
    (underscore_notMem_index zeros' d) hlist).1
  obtain rfl : lead = lead' := String.toList_inj.mp hlead
  exact ⟨rfl, Option.some.inj (h.symm.trans h')⟩

theorem ofName?_name_self (lead : String) (c : Channel) : ofName? lead (c.name lead) = some c :=
  ofName?_eq_some_iff.mpr ⟨0, (paddedName_zero lead c).symm⟩

/-- Under another leading text a channel name is refused. -/
theorem ofName?_name (lead lead' : String) (c : Channel) :
    ofName? lead (c.name lead') = if lead = lead' then some c else none := by
  split
  · next h => rw [h, ofName?_name_self]
  · next h =>
    rw [Option.eq_none_iff_forall_ne_some]
    intro d hd
    exact h (ofName?_unique hd (ofName?_name_self lead' c)).1

/-- A name belongs to one leading text only. Whatever is read as a channel under two leading texts
is read under one and the same, so names of channels are equal only if both the leading texts and
the channels are, and the name of a channel is read back under its own leading text and refused
under every other. -/
theorem name_has_one_lead :
    (∀ (name lead lead' : String) (c d : Channel),
      ofName? lead name = some c → ofName? lead' name = some d → lead = lead') ∧
    (∀ (lead lead' : String) (c d : Channel),
      c.name lead = d.name lead' ↔ lead = lead' ∧ c = d) ∧
    ∀ (lead lead' : String) (c : Channel),
      ofName? lead (c.name lead') = if lead = lead' then some c else none := by
  refine ⟨fun name lead lead' c d h h' => (ofName?_unique h h').1, fun lead lead' c d => ?_,
    ofName?_name⟩
  constructor
  · intro h
    apply ofName?_unique (ofName?_name_self lead c)
    rw [h]
    exact ofName?_name_self lead' d
  · rintro ⟨rfl, rfl⟩
    rfl

example : ofName? "a" "a_1_2" = none ∧ ofName? "a_1" "a_1_2" = some ⟨2⟩ := by decide

end Channel

/-- The name of a channel asks for that channel if it has the fanout's own leading text; with any
other it is noted as unmatched and the next automatic channel is registered. -/
theorem Fanout.requestNamed_name (f : Fanout) (lead : String) (c : Channel) :
    f.requestNamed (c.name lead) =
      if f.config.channelPrefix = lead then f.request (some c)
      else Logged.emit (.nameUnmatched (c.name lead)) >>= fun _ => f.request none := by
  rw [requestNamed, Channel.ofName?_name]
  split
  · apply Logged.ext <;> simp
  · rfl

end StreamFanout
