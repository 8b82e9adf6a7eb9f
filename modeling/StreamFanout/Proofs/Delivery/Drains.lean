import StreamFanout.Proofs.Waiting

/-!
Settling and draining as runs. To settle is to poll, and to drain is to receive and to poll, so what
holds in all runs holds there: a drain reads what its run receives, and at last what is no event.
-/
namespace StreamFanout.Dispatcher

variable {capacity : Nat}

theorem operateAll_append (d : Dispatcher) (xs ys : List Operation) :
    (d.operateAll (xs ++ ys)).value =
      ((d.operateAll xs).value.1 ++ ((d.operateAll xs).value.2.operateAll ys).value.1,
        ((d.operateAll xs).value.2.operateAll ys).value.2) := by
  induction xs generalizing d with
  | nil => rfl
  | cons op xs ih =>
    simp only [List.cons_append, operateAll, Logged.value_bind, Logged.value_pure, ih]

theorem received_append (d : Dispatcher) (k : Nat) (xs ys : List Operation) :
    received k (xs ++ ys) (d.operateAll (xs ++ ys)).value.1 =
      received k xs (d.operateAll xs).value.1 ++
        received k ys ((d.operateAll xs).value.2.operateAll ys).value.1 := by
  induction xs generalizing d with
  | nil => rfl
  | cons op xs ih =>
    simp only [List.cons_append, operateAll, Logged.value_bind, Logged.value_pure, received_cons,
      ih, List.append_assoc]

theorem received_polls (k : Nat) (tickets : List Nat) (results : List OperationResult) :
    received k (tickets.map fun t => .poll t) results = [] := by
  refine List.filterMap_eq_nil_iff.mpr fun (op, result) hp => ?_
  obtain ⟨ticket, -, rfl⟩ := List.mem_map.mp (List.of_mem_zip hp).1
  rfl

theorem pollEach_eq (d : Dispatcher) (tickets : List Nat) :
    (d.pollEach tickets).value.2 = (d.operateAll (tickets.map fun t => .poll t)).value.2 := by
  induction tickets generalizing d with
  | nil => rfl
  | cons ticket tickets ih => exact ih (d.poll ticket).value.2

theorem exists_settle_eq (d : Dispatcher) :
    ∃ tickets : List Nat,
      d.settle.value.2 = (d.operateAll (tickets.map fun t => .poll t)).value.2 := by
  fun_induction settle d with
  | case1 d step hlt ih =>
    obtain ⟨tickets, ih⟩ := ih
    refine ⟨d.waiting.map (·.ticket) ++ tickets, ?_⟩
    rw [List.map_append, operateAll_append, ← d.pollEach_eq]
    exact ih
  | case2 d step hlt => exact ⟨_, d.pollEach_eq _⟩

theorem settled_settle (d : Dispatcher) : ∀ x : Exchange, d.Tracks x → x.Lined capacity →
    d.settle.value.2.Settled := by
  fun_induction settle d with
  | case1 d step hlt ih =>
    intro x h hx
    have hstep : step.value.2.Tracks _ := (d.pollEach_eq _).symm ▸ (h.operateAll _).1
    exact ih _ hstep (hx.run _)
  | case2 d step hlt => exact fun x h hx => h.settled_round hx

/-- A drain is a run of receptions and polls. In a settled dispatcher it reads what its run
receives, and last of all, in a settled dispatcher again, what is no event. -/
theorem exists_drain_eq (d : Dispatcher) (k : Nat) : ∀ x : Exchange, d.Tracks x →
    x.Lined capacity → d.Settled →
    ∃ ops : List Operation, (∀ op ∈ ops, op = .receive k ∨ ∃ ticket, op = .poll ticket) ∧
      let r := (d.operateAll ops).value
      (d.drain k).value.readings =
          (received k ops r.1).map Reading.event ++ [(r.2.receive k).1] ∧
        r.2.Settled ∧ ∀ e, (r.2.receive k).1 ≠ .event e := by
  fun_induction drain d k with
  | case1 d reading step e he ih =>
    intro x h hx hs
    have hreceive : reading.2.Tracks _ := (h.operate (.receive k)).1
    obtain ⟨tickets, hpolls⟩ : ∃ tickets : List Nat, step.value.2 =
        (reading.2.operateAll (tickets.map fun t => .poll t)).value.2 := reading.2.exists_settle_eq
    have hstep : step.value.2.Tracks _ := hpolls.symm ▸ (hreceive.operateAll _).1
    have hlined := hx.run (d.acts (.receive k))
    obtain ⟨ops, hops, hreadings, hsettled, hlast⟩ :=
      ih _ hstep (hlined.run _) (reading.2.settled_settle _ hreceive hlined)
    -- One turn of the drain as operations; what it polls reads nothing.
    let first : List Operation := .receive k :: tickets.map fun t => .poll t
    have hfirst : (d.operateAll first).value.2 = step.value.2 := hpolls.symm
    have hread : received k first (d.operateAll first).value.1 = [e] := by
      show received k (.receive k :: tickets.map fun t => .poll t)
        (.read reading.1 :: (reading.2.operateAll (tickets.map fun t => .poll t)).value.1) = [e]
      rw [received_cons, received_polls, readOn?, if_pos rfl, he]
      rfl
    refine ⟨first ++ ops, fun op hop => ?_, ?_⟩
    · rcases List.mem_append.mp hop with hop | hop
      · rcases List.mem_cons.mp hop with rfl | hop
        · exact .inl rfl
        · obtain ⟨ticket, -, rfl⟩ := List.mem_map.mp hop
          exact .inr ⟨ticket, rfl⟩
      · exact hops op hop
    · intro r
      have hr : r.2 = (step.value.2.operateAll ops).value.2 := by
        show (d.operateAll (first ++ ops)).value.2 = _
        rw [operateAll_append, hfirst]
      have hreceived : received k (first ++ ops) r.1 =
          e :: received k ops (step.value.2.operateAll ops).value.1 := by
        show received k (first ++ ops) (d.operateAll (first ++ ops)).value.1 = _
        rw [received_append, hread, hfirst]
        rfl
      rw [hr, hreceived]
      exact ⟨congrArg (Reading.event e :: ·) hreadings, hsettled, hlast⟩
  | case2 d reading step hne =>
    exact fun x h hx hs => ⟨[], fun op hop => absurd hop List.not_mem_nil, rfl, hs, hne⟩

end StreamFanout.Dispatcher
