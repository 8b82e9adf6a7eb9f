import StreamFanout.Proofs.EndOfStream
import StreamFanout.Proofs.HostCall

/-!
Calls that are refused. A refused call leaves the fanout as it was, but for the count of refused
units; and no call and no pass looks at that count, so leaving it out changes nothing that they do.
-/
namespace StreamFanout

/-- The counters but for the refused units. -/
def Counters.unrefused (c : Counters) : Counters :=
  { c with unitsRejected := 0 }

def Stats.unrefused (s : Stats) : Stats :=
  { s with counters := s.counters.unrefused }

namespace HostCall

def unrefused : HostCall → HostCall
  | arriveAll us => arriveAll (accepted us)
  | call => call

end HostCall

namespace HostResult

def isRefusal : HostResult → Bool
  | arrived (.error (.invalidUnit _)) => true
  | requested (.error (.duplicateChannel _)) => true
  | requested (.error .channelsExhausted) => true
  | released false => true
  | _ => false

def unitsRefused : HostResult → Nat
  | arrived (.error (.invalidUnit _)) => 1
  | arrivedAll _ refused => refused
  | _ => 0

def unrefused : HostResult → HostResult
  | arrivedAll accepted _ => arrivedAll accepted 0
  | stats s => stats s.unrefused
  | result => result

end HostResult

theorem Grouping.eq_empty_of_groups {g : Grouping} (h : g.groups = []) : g = {} := by
  obtain ⟨hclosed, hcurrent⟩ := List.append_eq_nil_iff.mp h
  obtain ⟨closed, current⟩ := g
  simp_all

namespace Fanout

/-- The fanout but for its count of refused units. -/
def unrefused (f : Fanout) : Fanout :=
  { f with counters := f.counters.unrefused }

variable (f : Fanout)

@[simp] theorem stats_unrefused : f.unrefused.stats = f.stats.unrefused := rfl

theorem arrive_refused {u : AccessUnit} (hu : u.size = 0) :
    (f.arrive u).value = (.error (.invalidUnit "empty payload"), { f with
      counters := { f.counters with unitsRejected := f.counters.unitsRejected + 1 } }) := by
  rw [arrive_value, Grouping.ingest_refused hu]
  rfl

theorem arrive_unrefused {u : AccessUnit} (hu : u.size ≠ 0) :
    (f.arrive u).value.1 = .ok () ∧
      (f.arrive u).value.2.counters.unitsRejected = f.counters.unitsRejected ∧
      (f.unrefused.arrive u).value = (.ok (), (f.arrive u).value.2.unrefused) := by
  simp only [arrive_value, unrefused, Grouping.ingest_accepted hu]
  exact ⟨trivial, rfl, rfl⟩

theorem arriveAll_cons_value (u : AccessUnit) (us : List AccessUnit) :
    (f.arriveAll (u :: us)).value.1 =
      match (f.arrive u).value.1 with
      | .ok () => (((f.arrive u).value.2.arriveAll us).value.1.1 + 1,
          ((f.arrive u).value.2.arriveAll us).value.1.2)
      | .error _ => (((f.arrive u).value.2.arriveAll us).value.1.1,
          ((f.arrive u).value.2.arriveAll us).value.1.2 + 1) := by
  simp only [arriveAll, Logged.value_bind]
  cases (f.arrive u).value.1 <;> rfl

/-- Offering only the units that carry a payload has the same effect. -/
theorem arriveAll_unrefused (us : List AccessUnit) :
    (f.unrefused.arriveAll (accepted us)).value =
      (((f.arriveAll us).value.1.1, 0), (f.arriveAll us).value.2.unrefused) := by
  induction us generalizing f with
  | nil => rfl
  | cons u us ih =>
    by_cases hu : u.size = 0
    · have hrest : accepted (u :: us) = accepted us := by simp [accepted, hu]
      have hsame : (f.arrive u).value.2.unrefused = f.unrefused := by
        rw [f.arrive_refused hu]
        rfl
      rw [hrest, arriveAll_cons_value, arriveAll_cons_state, ← hsame, ih, f.arrive_refused hu]
    · have hfirst : accepted (u :: us) = u :: accepted us := by
        simp [accepted, Nat.pos_iff_ne_zero, hu]
      obtain ⟨hresult, -, hvalue⟩ := f.arrive_unrefused hu
      apply Prod.ext
      · rw [hfirst, arriveAll_cons_value, arriveAll_cons_value, hvalue, ih, hresult]
      · rw [hfirst, arriveAll_cons_state, arriveAll_cons_state, hvalue, ih]

theorem unitsRejected_arriveAll (us : List AccessUnit) :
    (f.arriveAll us).value.2.counters.unitsRejected =
      f.counters.unitsRejected + (f.arriveAll us).value.1.2 := by
  induction us generalizing f with
  | nil => rfl
  | cons u us ih =>
    rw [arriveAll_cons_state, arriveAll_cons_value, ih]
    by_cases hu : u.size = 0
    · rw [f.arrive_refused hu]
      simp only
      omega
    · obtain ⟨hresult, hcount, -⟩ := f.arrive_unrefused hu
      rw [hresult, hcount]

theorem request_unrefused (requested : Option Channel) :
    (f.unrefused.request requested).value =
      ((f.request requested).value.1, (f.request requested).value.2.unrefused) := by
  simp only [request, unrefused]
  cases f.roster.register requested <;> rfl

theorem request_refused {requested : Option Channel} {e : FanoutError}
    (h : (f.request requested).value.1 = .error e) : (f.request requested).value.2 = f := by
  rw [request] at h ⊢
  cases hr : f.roster.register requested with
  | ok given =>
    rw [hr] at h
    cases h
  | error e => rfl

theorem requestNamed_value (name : String) : (f.requestNamed name).value =
    (f.request (Channel.ofName? f.config.channelPrefix name)).value := by
  simp only [requestNamed]
  split <;> rfl

theorem release_refused {c : Channel} (h : (f.release c).value.1 = false) :
    (f.release c).value.2 = f := by
  by_cases hc : f.roster.contains c = true
  · rw [release, if_pos hc] at h
    cases h
  · rw [release, if_neg hc]
    rfl

theorem release_unrefused (c : Channel) : (f.unrefused.release c).value =
    ((f.release c).value.1, (f.release c).value.2.unrefused) := by
  by_cases hc : f.roster.contains c = true
  · simp [release, unrefused, hc]
  · simp [release, unrefused, hc]

/-- A call that is not refused does the same whatever units were refused before. -/
theorem perform_unrefused {call : HostCall} (h : (f.perform call).value.1.isRefusal = false) :
    (f.unrefused.perform call.unrefused).value =
      ((f.perform call).value.1.unrefused, (f.perform call).value.2.unrefused) := by
  cases call with
  | arrive u =>
    by_cases hu : u.size = 0
    · simp [perform, f.arrive_refused hu, HostResult.isRefusal] at h
    · obtain ⟨hresult, -, hvalue⟩ := f.arrive_unrefused hu
      simp [perform, HostCall.unrefused, HostResult.unrefused, hvalue, hresult]
  | arriveAll us =>
    simp [perform, HostCall.unrefused, HostResult.unrefused, arriveAll_unrefused]
  | request c => simp [perform, HostCall.unrefused, HostResult.unrefused, request_unrefused]
  | requestNamed name =>
    have hconfig : f.unrefused.config = f.config := rfl
    simp [perform, HostCall.unrefused, HostResult.unrefused, requestNamed_value, request_unrefused,
      hconfig]
  | release c => simp [perform, HostCall.unrefused, HostResult.unrefused, release_unrefused]
  | live | stats | config => rfl

/-- A refused call leaves the fanout as it was, but for the count of refused units. -/
theorem perform_refused {call : HostCall} (h : (f.perform call).value.1.isRefusal = true) :
    (f.perform call).value.2.unrefused = f.unrefused := by
  have request {requested : Option Channel}
      (h : (HostResult.requested (f.request requested).value.1).isRefusal = true) :
      (f.request requested).value.2 = f := by
    cases he : (f.request requested).value.1 with
    | ok c =>
      rw [he] at h
      cases h
    | error e => exact f.request_refused he
  cases call with
  | arrive u =>
    by_cases hu : u.size = 0
    · simp [perform, f.arrive_refused hu, unrefused, Counters.unrefused]
    · simp [perform, (f.arrive_unrefused hu).1, HostResult.isRefusal] at h
  | request c => exact congrArg unrefused (request h)
  | requestNamed name =>
    have hvalue := f.requestNamed_value name
    simp only [perform, Logged.value_bind, Logged.value_pure, hvalue] at h ⊢
    rw [request h]
  | release c =>
    simp only [perform, Logged.value_bind, Logged.value_pure] at h ⊢
    cases hr : (f.release c).value.1 with
    | true =>
      rw [hr] at h
      cases h
    | false => rw [f.release_refused hr]
  | arriveAll us | live | stats | config => cases h

theorem unitsRejected_perform (call : HostCall) :
    (f.perform call).value.2.counters.unitsRejected =
      f.counters.unitsRejected + (f.perform call).value.1.unitsRefused := by
  cases call with
  | arrive u =>
    by_cases hu : u.size = 0
    · simp [perform, f.arrive_refused hu, HostResult.unitsRefused]
    · obtain ⟨hresult, hcount, -⟩ := f.arrive_unrefused hu
      simp [perform, hresult, hcount, HostResult.unitsRefused]
  | arriveAll us => exact f.unitsRejected_arriveAll us
  | request c =>
    obtain ⟨roster, hs, -⟩ := f.request_state c
    simp [perform, hs, HostResult.unitsRefused]
  | requestNamed name =>
    obtain ⟨roster, hs, -⟩ := f.request_state (Channel.ofName? f.config.channelPrefix name)
    simp [perform, requestNamed_state, hs, HostResult.unitsRefused]
  | release c =>
    obtain ⟨roster, hs, -⟩ := f.release_state c
    simp [perform, hs, HostResult.unitsRefused]
  | live | stats | config => rfl

theorem follow_unrefused (p : Progress) :
    (f.unrefused.follow p).value = ((f.follow p).value.1, (f.follow p).value.2.unrefused) := by
  cases p with
  | finished plan lanes =>
    have hresult : (f.unrefused.book plan lanes).value.1 = (f.book plan lanes).value.1 := by
      rw [book_result, book_result]
    have hstate : (f.unrefused.book plan lanes).value.2 =
        (f.book plan lanes).value.2.unrefused := by
      rw [book_state, book_state]
      rfl
    simp [follow, hresult, hstate]
  | waiting | discarded => rfl

theorem resume_unrefused (p : Pass) (a : Answer) : (f.unrefused.resume p a).value =
    ((f.resume p a).value.1, (f.resume p a).value.2.unrefused) :=
  f.follow_unrefused (p.resume f.roster.contains f.config.silent a).value

theorem endStream_unrefused : f.unrefused.endStream.value =
    (f.endStream.value.1, f.endStream.value.2.unrefused) := by
  rw [endStream_value, endStream_value]
  rfl

theorem follow_ne_noData (p : Progress) : (f.follow p).value.1 ≠ .ended (.error .noData) := by
  cases p with
  | finished plan lanes =>
    have hresult := f.book_result plan lanes
    simp only [follow, Logged.value_bind, Logged.value_pure, hresult]
    split <;> simp
  | waiting | discarded => exact nofun

theorem endStream_noData (h : f.endStream.value.1 = .ended (.error .noData)) :
    f.endStream.value.2 = f := by
  by_cases ho : f.live = [] ∨ f.grouping.groups ≠ []
  · rw [endStream_opens ho] at h
    cases h
  · obtain ⟨-, hg⟩ := not_or.mp ho
    have hgrouping : f.grouping = {} := Grouping.eq_empty_of_groups (Classical.not_not.mp hg)
    rw [endStream_value, ← hgrouping]

end Fanout

end StreamFanout
