/-!
Sums over lists. Unlike `List.sum` these depend on no instance.
-/

namespace StreamFanout

variable {α : Type}

def sumOf (f : α → Nat) (xs : List α) : Nat :=
  xs.foldr (fun x n => f x + n) 0

@[simp] theorem sumOf_nil (f : α → Nat) : sumOf f [] = 0 := rfl

@[simp] theorem sumOf_cons (f : α → Nat) (x : α) (xs : List α) :
    sumOf f (x :: xs) = f x + sumOf f xs := rfl

@[simp] theorem sumOf_append (f : α → Nat) (xs ys : List α) :
    sumOf f (xs ++ ys) = sumOf f xs + sumOf f ys := by
  induction xs with
  | nil => exact (Nat.zero_add _).symm
  | cons x xs ih => rw [List.cons_append, sumOf_cons, ih, sumOf_cons, Nat.add_assoc]

end StreamFanout
