import StreamFanout.Proofs.Stream.Cuts

/-!
What a grouping logs. Each group is told by the arrivals of its units and then by its closing, so
the log since groups were last handed out tells which groups are handed out next, up to the
payloads of their units.
-/
namespace StreamFanout

namespace AccessUnit

def stamp (u : AccessUnit) : UInt64 × Bool :=
  (u.pts, u.isKeyframe)

def arrival (u : AccessUnit) : LogEvent :=
  .unitArrived u.pts u.isKeyframe

@[simp] theorem stamp_marked (u : AccessUnit) : u.marked.stamp = u.stamp := rfl

@[simp] theorem arrival_marked (u : AccessUnit) : u.marked.arrival = u.arrival := rfl

end AccessUnit

def stamps (log : List LogEvent) : List (UInt64 × Bool) :=
  log.filterMap fun
    | .unitArrived pts isKeyframe => some (pts, isKeyframe)
    | _ => none

@[simp] theorem stamps_append (log log' : List LogEvent) :
    stamps (log ++ log') = stamps log ++ stamps log' :=
  List.filterMap_append

@[simp] theorem stamps_map_arrival (us : List AccessUnit) :
    stamps (us.map AccessUnit.arrival) = us.map AccessUnit.stamp := by
  induction us with
  | nil => rfl
  | cons u us ih => exact congrArg (u.stamp :: ·) ih

/-- A closing that a log tells of: what it carries, and the units that have arrived since the one
before it. -/
structure Closing where
  gop : Nat
  units : Nat
  arrived : List (UInt64 × Bool)
  deriving DecidableEq

/-- The closings that a log tells of, when some units have arrived before it. -/
def closings (arrived : List (UInt64 × Bool)) : List LogEvent → List Closing
  | [] => []
  | .unitArrived pts isKeyframe :: log => closings (arrived ++ [(pts, isKeyframe)]) log
  | .gopClosed gop units :: log => ⟨gop, units, arrived⟩ :: closings [] log
  | _ :: log => closings arrived log

theorem closings_arrivals (arrived : List (UInt64 × Bool)) (us : List AccessUnit)
    (log : List LogEvent) :
    closings arrived (us.map AccessUnit.arrival ++ log) =
      closings (arrived ++ us.map AccessUnit.stamp) log := by
  induction us generalizing arrived with
  | nil => simp
  | cons u us ih =>
    have hu := ih (arrived ++ [u.stamp])
    rwa [List.append_assoc] at hu

/-- Some groups as they are logged, the first of them with the number `k`. -/
def chronicle (k : Nat) (gs : List Gop) : List LogEvent :=
  (gs.zipIdx k).flatMap fun (g, k) => g.units.map AccessUnit.arrival ++ [.gopClosed k g.length]

theorem chronicle_cons (k : Nat) (g : Gop) (gs : List Gop) :
    chronicle k (g :: gs) =
      g.units.map AccessUnit.arrival ++ .gopClosed k g.length :: chronicle (k + 1) gs := by
  simp [chronicle]

theorem chronicle_concat (k : Nat) (gs : List Gop) (g : Gop) :
    chronicle k (gs ++ [g]) = chronicle k gs ++ g.units.map AccessUnit.arrival ++
      [.gopClosed (k + gs.length) g.length] := by
  simp [chronicle, List.zipIdx_append]

theorem stamps_chronicle (k : Nat) (gs : List Gop) :
    stamps (chronicle k gs) = (Gop.flatten gs).map AccessUnit.stamp := by
  induction gs generalizing k with
  | nil => rfl
  | cons g gs ih =>
    rw [chronicle_cons, stamps_append, stamps_map_arrival, Gop.flatten_cons, List.map_append,
      ← ih (k + 1)]
    rfl

/-- Every group is closed once, with its number, after the arrivals of its units. -/
theorem closings_chronicle (k : Nat) (gs : List Gop) :
    closings [] (chronicle k gs) =
      (gs.zipIdx k).map fun (g, k) => ⟨k, g.length, g.units.map AccessUnit.stamp⟩ := by
  induction gs generalizing k with
  | nil => rfl
  | cons g gs ih =>
    rw [chronicle_cons, closings_arrivals, List.nil_append, closings, ih]
    rfl

namespace Grouping

/-- A grouping as it is logged: its closed groups, and the units of the open one. -/
def told (g : Grouping) : List LogEvent :=
  chronicle 1 g.closed.toList ++ (g.current.toList.flatMap Gop.units).map AccessUnit.arrival

theorem stamps_told (g : Grouping) : stamps g.told = g.units.map AccessUnit.stamp := by
  rw [told, stamps_append, stamps_chronicle, stamps_map_arrival, ← List.map_append]
  simp [units, groups, Gop.flatten]

theorem told_close (g : Grouping) : g.close.value.told = g.told ++ g.close.log := by
  cases hc : g.current with
  | none => simp [close, hc]
  | some gop => simp [close, hc, told, chronicle_concat, Nat.add_comm]

theorem told_append (g : Grouping) (u : AccessUnit) :
    (g.append u).told = g.told ++ [u.arrival] := by
  cases hc : g.current <;> simp [append, hc, told]

theorem log_ingest_accepted (g : Grouping) {u : AccessUnit} (hu : u.size ≠ 0) :
    (g.ingest u).log = (if u.isKeyframe then g.close.log else []) ++ [u.arrival] := by
  by_cases hk : u.isKeyframe <;> simp [ingest, AccessUnit.validate, hu, hk, AccessUnit.arrival]

theorem told_ingest (g : Grouping) (u : AccessUnit) :
    (g.ingest u).value.2.told = g.told ++ (g.ingest u).log := by
  by_cases hu : u.size = 0
  · simp [g.ingest_eq_pure hu]
  · rw [ingest_accepted hu, g.log_ingest_accepted hu, told_append, AccessUnit.arrival_marked,
      ← List.append_assoc]
    split
    · rw [told_close]
    · rw [List.append_nil]

theorem stamps_close (g : Grouping) : stamps g.close.log = [] := by
  rw [close]
  cases g.current <;> rfl

/-- Of an accepted unit one arrival is logged, and of a refused one none. -/
theorem stamps_ingest (g : Grouping) (u : AccessUnit) :
    stamps (g.ingest u).log = if u.size = 0 then [] else [u.stamp] := by
  split
  · next hu =>
    rw [g.ingest_eq_pure hu]
    rfl
  · next hu =>
    have harrival : stamps [u.arrival] = [u.stamp] := rfl
    rw [g.log_ingest_accepted hu, stamps_append, harrival]
    split
    · rw [stamps_close, List.nil_append]
    · rfl

/-- Handing out the groups closes the last of them, and then they are all told. -/
theorem told_finalize (g : Grouping) :
    g.told ++ g.finalize.log = chronicle 1 g.finalize.value := by
  have hclosed : g.close.value.told = chronicle 1 g.close.value.closed.toList := by
    rw [told, current_close]
    simp
  simpa [finalize, told_close] using hclosed

theorem told_perform_ingest (g : Grouping) (u : AccessUnit) :
    (g.perform (.ingest u)).value.2.told = g.told ++ (g.perform (.ingest u)).log := by
  simp [perform, told_ingest]

/-- What has been logged since groups were last handed out, when it was `log` before. -/
def logSince (g : Grouping) (log : List LogEvent) : List Call → List LogEvent
  | [] => log
  | .ingest u :: calls =>
    (g.perform (.ingest u)).value.2.logSince (log ++ (g.perform (.ingest u)).log) calls
  | .finalize :: calls => (g.perform .finalize).value.2.logSince [] calls

/-- What has been logged since groups were last handed out tells what is buffered. -/
theorem logSince_told (g : Grouping) (calls : List Call) :
    g.logSince g.told calls = (g.after calls).told := by
  induction calls generalizing g with
  | nil => rfl
  | cons call calls ih =>
    cases call with
    | ingest u =>
      rw [after, ← ih, logSince, told_perform_ingest]
    | finalize => exact ih _

def logged (g : Grouping) : List Call → List LogEvent
  | [] => []
  | call :: calls => (g.perform call).log ++ (g.perform call).value.2.logged calls

/-- What is handed out in a use of a grouping, a list of groups each time. -/
def handed (g : Grouping) : List Call → List (List Gop)
  | [] => []
  | .ingest u :: calls => (g.perform (.ingest u)).value.2.handed calls
  | .finalize :: calls => g.finalize.value :: (g.perform .finalize).value.2.handed calls

/-- All groups that are handed out are told, those of each time from one, and then what is
buffered. -/
theorem told_logged (g : Grouping) (calls : List Call) :
    g.told ++ g.logged calls =
      (g.handed calls).flatMap (chronicle 1) ++ (g.after calls).told := by
  induction calls generalizing g with
  | nil => simp [logged, handed, after]
  | cons call calls ih =>
    have hnext := ih (g.perform call).value.2
    cases call with
    | ingest u =>
      rwa [told_perform_ingest, List.append_assoc] at hnext
    | finalize =>
      have hlog : (g.perform .finalize).log = g.finalize.log := by simp [perform]
      rw [logged, ← List.append_assoc, hlog, told_finalize, handed, List.flatMap_cons,
        List.append_assoc]
      exact congrArg (chronicle 1 g.finalize.value ++ ·) hnext

/-- At any moment, what has been logged since groups were last handed out has one arrival for each
unit accepted since then, in order and with its time and kind. Together with what handing out the
groups logs it has one closing for each group that is handed out. The closings are numbered from
one, and each carries the length of its group, which is the number of units that have arrived since
the closing before; these are the units of the group. A refused unit leaves no arrival. The log of
the whole use is that of the groups handed out each time, numbered from one, and then the log since
the last time. -/
theorem log_tells_groups (calls : List Call) :
    let g := ({} : Grouping).after calls
    let log := ({} : Grouping).logSince [] calls
    let whole := log ++ (g.perform .finalize).log
    let groups := handedOut calls
    (g.perform .finalize).value = (.finalized groups, {}) ∧
      stamps log = (sinceFinalize calls).map AccessUnit.stamp ∧
      (∀ u, stamps (g.perform (.ingest u)).log = if u.size = 0 then [] else [u.stamp]) ∧
      (closings [] whole).length = groups.length ∧
      (∀ c ∈ closings [] whole, c.units = c.arrived.length) ∧
      closings [] whole = (groups.zipIdx 1).map (fun (gop, k) =>
        ⟨k, gop.length, gop.units.map AccessUnit.stamp⟩) ∧
      ({} : Grouping).logged calls =
        (({} : Grouping).handed calls).flatMap (chronicle 1) ++ log := by
  intro g log whole groups
  have hlog : log = g.told := ({} : Grouping).logSince_told calls
  have hwhole : whole = chronicle 1 groups := by
    calc whole = g.told ++ g.finalize.log := by simp [whole, perform, hlog]
      _ = chronicle 1 groups := g.told_finalize
  have hclosings := closings_chronicle 1 groups
  rw [← hwhole] at hclosings
  have hstamps : stamps log = (sinceFinalize calls).map AccessUnit.stamp := by
    rw [hlog, stamps_told, (groups_after calls).units_eq, List.map_map]
    rfl
  refine ⟨rfl, hstamps, fun u => ?_, ?_, ?_, hclosings, ?_⟩
  · simpa [perform] using g.stamps_ingest u
  · rw [hclosings, List.length_map, List.length_zipIdx]
  · intro c hc
    rw [hclosings] at hc
    obtain ⟨⟨gop, k⟩, -, rfl⟩ := List.mem_map.mp hc
    simp
  · rw [hlog]
    exact ({} : Grouping).told_logged calls

end Grouping
end StreamFanout
