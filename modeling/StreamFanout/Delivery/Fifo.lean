/-!
Items that are taken in the order in which they came. Those that came last are kept in reverse, and
turned round when the others are used up, so each item is moved only once on its way.
-/

namespace StreamFanout

structure Fifo (α : Type) where
  front : List α := []
  /-- What came after the front, latest first. -/
  back : List α := []
  size : Nat := front.length + back.length
  size_eq : size = front.length + back.length := by rfl

namespace Fifo

variable {α : Type}

def toList (q : Fifo α) : List α :=
  q.front ++ q.back.reverse

def push (q : Fifo α) (a : α) : Fifo α where
  front := q.front
  back := a :: q.back
  size := q.size + 1
  size_eq := by rw [q.size_eq, List.length_cons, Nat.add_assoc]

/-- Takes the item that came first. -/
def pop? (q : Fifo α) : Option (α × Fifo α) :=
  match hf : q.front with
  | a :: front =>
    have h : q.size - 1 = front.length + q.back.length := by
      have := q.size_eq
      rw [hf, List.length_cons] at this
      omega
    some (a, ⟨front, q.back, q.size - 1, h⟩)
  | [] =>
    match hb : q.back.reverse with
    | [] => none
    | a :: front =>
      have h : q.size - 1 = front.length + [].length := by
        have := q.size_eq
        rw [hf, ← q.back.length_reverse, hb, List.length_cons, List.length_nil] at this
        rw [List.length_nil]
        omega
      some (a, ⟨front, [], q.size - 1, h⟩)

@[simp] theorem toList_empty : ({} : Fifo α).toList = [] := rfl

@[simp] theorem toList_push (q : Fifo α) (a : α) : (q.push a).toList = q.toList ++ [a] := by
  simp [toList, push]

@[simp] theorem length_toList (q : Fifo α) : q.toList.length = q.size := by
  simp [toList, q.size_eq]

theorem toList_of_pop? {q r : Fifo α} {a : α} (h : q.pop? = some (a, r)) :
    q.toList = a :: r.toList := by
  unfold pop? at h
  split at h
  · next front hf =>
    obtain ⟨rfl, rfl⟩ := Option.some.inj h
    simp [toList, hf]
  · next hf =>
    split at h
    · simp at h
    · next front hb =>
      obtain ⟨rfl, rfl⟩ := Option.some.inj h
      simp [toList, hf, hb]

theorem pop?_eq_none_iff {q : Fifo α} : q.pop? = none ↔ q.toList = [] := by
  constructor
  · intro h
    unfold pop? at h
    split at h
    · simp at h
    · next hf =>
      split at h
      · next hb => simp [toList, hf, hb]
      · simp at h
  · intro h
    cases hp : q.pop? with
    | none => rfl
    | some p => simp [toList_of_pop? hp] at h

end Fifo

end StreamFanout
