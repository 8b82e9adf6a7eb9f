import StreamFanout.LogEvent

/-!
Values together with what was logged while they were computed. Sequencing appends the logs, so
the log of a computation is that of its steps in order.
-/

namespace StreamFanout

/-- A value and the events that were logged on the way to it. -/
structure Logged (α : Type) where
  value : α
  log : List LogEvent := []

namespace Logged

/-- One log after another; a log that nothing follows is left as it is. -/
def chain (xs ys : List LogEvent) : List LogEvent :=
  if ys.isEmpty then xs else xs ++ ys

@[simp] theorem chain_eq_append (xs ys : List LogEvent) : chain xs ys = xs ++ ys := by
  cases ys <;> simp [chain]

instance : Monad Logged where
  pure a := ⟨a, []⟩
  bind x f :=
    let y := f x.value
    ⟨y.value, chain x.log y.log⟩

def emit (e : LogEvent) : Logged Unit :=
  ⟨(), [e]⟩

def emitAll (log : List LogEvent) : Logged Unit :=
  ⟨(), log⟩

variable {α β : Type}

@[ext] theorem ext {x y : Logged α} (hv : x.value = y.value) (hl : x.log = y.log) : x = y := by
  cases x; cases y; simp_all

@[simp] theorem value_pure (a : α) : (pure a : Logged α).value = a := rfl

@[simp] theorem log_pure (a : α) : (pure a : Logged α).log = [] := rfl

@[simp] theorem value_bind (x : Logged α) (f : α → Logged β) :
    (x >>= f).value = (f x.value).value := rfl

@[simp] theorem log_bind (x : Logged α) (f : α → Logged β) :
    (x >>= f).log = x.log ++ (f x.value).log :=
  chain_eq_append _ _

@[simp] theorem value_map (f : α → β) (x : Logged α) : (f <$> x).value = f x.value := rfl

@[simp] theorem log_map (f : α → β) (x : Logged α) : (f <$> x).log = x.log := rfl

@[simp] theorem log_emit (e : LogEvent) : (emit e).log = [e] := rfl

@[simp] theorem log_emitAll (log : List LogEvent) : (emitAll log).log = log := rfl

end Logged

end StreamFanout
