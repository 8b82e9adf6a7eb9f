import StreamFanout.Proofs.Delivery.Queues
import StreamFanout.Proofs.EndOfStream

/-!
A pass over queues whose consumers listen. Its calls are accepted, at once or when they have waited,
so from one stop to the next it moves events that are due to the queues of their channels and
changes nothing else. It stops at the first call that has to wait, and when it ends nothing is due
any more and its report is the full one.
-/
namespace StreamFanout

variable {gops : List Gop} {plan : Partition} {channels : List Channel}

/-- The pass that an end of stream opens has all shares before it. -/
theorem Fanout.whole_opening {f : Fanout} (hl : f.live ≠ []) (hd : f.live.Nodup) :
    (Progress.waiting f.opening).Whole f.grouping.groups f.plan ∧
      ∀ b ∈ f.blocks, f.opening.due b.channel =
        (Gop.flatten (b.share f.grouping.groups)).map .unit ++ [.endOfStream] := by
  rw [opening_of_live hl]
  exact Pass.whole_start (contiguous_blocks hl) (nodup_blocks hd)

/-- A stop that is left brings a pass to its next stop, or to its end. Its call is no longer due on
a channel that is kept, and all else still is. -/
theorem Fanout.resume_of_keeps {f : Fanout} {p : Pass} {kept : Channel → Prop}
    (hl : ∀ c ∈ plan.blocks.map Block.channel, kept c → f.roster.contains c = true)
    (hd : (plan.blocks.map Block.channel).Nodup) (h : (Progress.waiting p).Keeps gops plan kept)
    {answer : Answer}
    (ha : ∀ c, p.call?.map SinkCall.channel = some c → kept c → answer = .accepted) :
    (∃ p', (f.resume p answer).value = (.suspended p', f) ∧
        (Progress.waiting p').Keeps gops plan kept ∧
        ∀ c ∈ plan.blocks.map Block.channel, kept c → p'.due c = p.dueAfter c) ∨
      ∃ lanes, (f.resume p answer).value = (.ended (f.book plan lanes).value.1, f.booked lanes) ∧
        (Progress.finished plan lanes).Keeps gops plan kept ∧
        ∀ c ∈ plan.blocks.map Block.channel, kept c → p.dueAfter c = [] := by
  have hkeeps := Pass.keeps_resume f.config.silent hd
    (fun b hb => hl b.channel (List.mem_map_of_mem hb)) h ha
  have hdue : ∀ c ∈ plan.blocks.map Block.channel, kept c →
      (p.resume f.roster.contains f.config.silent answer).value.due c = p.dueAfter c :=
    fun c hc hk => Pass.due_resume_kept f.config.silent (Pass.nodup_lanes_of_blocks h.blocks_eq hd)
      (hl c hc hk) fun he => ha c he hk
  rcases f.resume_cases p answer with ⟨p', hr, hv⟩ | ⟨plan', lanes, hr, hv⟩ | ⟨gops', hr, hv⟩
  · rw [hr] at hkeeps hdue
    exact .inl ⟨p', hv, hkeeps, hdue⟩
  · rw [hr] at hkeeps hdue
    obtain rfl : plan' = plan := Option.some.inj hkeeps.plan?_eq
    refine .inr ⟨lanes, hv, hkeeps, fun c hc hk => ?_⟩
    rw [← hdue c hc hk]
    exact Progress.due_finished hkeeps.inStep.2 c
  · rw [hr] at hkeeps
    cases hkeeps.plan?_eq

/-- A pass that is over names no channel that was kept. -/
theorem Fanout.failed_book_of_keeps {kept : Channel → Prop} {f : Fanout} {lanes : List Lane}
    {failed : List Channel} (h : (Progress.finished plan lanes).Keeps gops plan kept)
    (hf : (f.book plan lanes).value.1 = .error (.pushFailed failed)) :
    ∀ e ∈ failed, e ∈ plan.blocks.map Block.channel ∧ ¬kept e := by
  rw [book_result] at hf
  split at hf
  · cases hf
  · cases hf
    intro e he
    obtain ⟨l, hl, rfl⟩ := List.mem_map.mp he
    obtain ⟨hl, hfailed⟩ := List.mem_filter.mp hl
    refine ⟨?_, fun hk => ?_⟩
    · rw [← h.blocks_eq]
      exact List.mem_map.mpr ⟨l.block, List.mem_map_of_mem hl, rfl⟩
    · rw [(Lane.full_of_keeps h l hl hk).1] at hfailed
      cases hfailed

/-- Where calls are accepted a stop brings a pass that has lost nothing to its next stop, or to its
end. -/
theorem Fanout.resume_of_whole {f : Fanout} {p : Pass} (hl : f.live = channels)
    (hb : plan.blocks.map Block.channel = channels) (hd : channels.Nodup)
    (h : (Progress.waiting p).Whole gops plan) :
    (∃ p', (f.resume p .accepted).value = (.suspended p', f) ∧
        (Progress.waiting p').Whole gops plan ∧ ∀ c ∈ channels, p'.due c = p.dueAfter c) ∨
      ∃ lanes, (f.resume p .accepted).value =
          (.ended (.ok (fullReport gops plan)), f.booked lanes) ∧
        Lane.totalDropped lanes = 0 ∧ ∀ c ∈ channels, p.dueAfter c = [] := by
  subst hb
  rcases resume_of_keeps (fun c hc _ => Roster.contains_iff.mpr (show c ∈ f.live from hl ▸ hc)) hd
    h fun _ _ _ => rfl with ⟨p', hr, hk, hdue⟩ | ⟨lanes, hr, hk, hdue⟩
  · exact .inl ⟨p', hr, hk, fun c hc => hdue c hc trivial⟩
  · obtain ⟨hfailed, hdropped, hreport⟩ := Lane.report_of_whole hk
    have hresult := f.book_result plan lanes
    rw [if_pos hfailed, hreport] at hresult
    exact .inr ⟨lanes, hresult ▸ hr, hdropped, fun c hc => hdue c hc trivial⟩

/-- Events pass from what is due on each channel to what is queued for it, and nothing is lost or
reordered on the way. -/
structure Switchboard.Moves (channels : List Channel) (b b' : Switchboard)
    (due due' : Channel → List ConsumerEvent) : Prop where
  routes_eq : b'.routes = b.routes
  size_eq : b'.queues.size = b.queues.size
  conserved : ∀ c ∈ channels, b.queuedFor c ++ due c = b'.queuedFor c ++ due' c

namespace Switchboard

variable {b b' b'' : Switchboard} {due due' due'' : Channel → List ConsumerEvent}

theorem Moves.refl : Moves channels b b due due :=
  ⟨rfl, rfl, fun _ _ => rfl⟩

theorem Moves.trans (h : Moves channels b b' due due') (h' : Moves channels b' b'' due' due'') :
    Moves channels b b'' due due'' := by
  refine ⟨h'.routes_eq.trans h.routes_eq, h'.size_eq.trans h.size_eq, fun c hc => ?_⟩
  rw [h.conserved c hc, h'.conserved c hc]

theorem Gains.moves {call : Option SinkCall} (h : Gains channels call b b')
    (hdue : ∀ c ∈ channels, due c = (call.bind (·.eventOn? c)).toList ++ due' c) :
    Moves channels b b' due due' := by
  refine ⟨h.routes_eq, h.size_eq, fun c hc => ?_⟩
  rw [hdue c hc, h.queued_eq c hc, List.append_assoc]

/-- A pass that waits on a queue stands at a call on a channel that leads there. -/
def Leads (b : Switchboard) (queue : Option Nat) (p : Pass) : Prop :=
  ∀ k ∈ queue, ∃ call ∈ p.call?, b.route? call.channel = some k

theorem Leads.congr {queue : Option Nat} {p : Pass} (h : b.Leads queue p)
    (hr : b'.routes = b.routes) : b'.Leads queue p := by
  unfold Leads
  rw [route?_congr hr]
  exact h

end Switchboard

namespace Dispatcher

/-- What has become of the pass `p` of a call when the call is left alone again. -/
inductive Carries (gops : List Gop) (plan : Partition) (channels : List Channel)
    (d : Dispatcher) (ticket : Nat) (p : Pass) (b : Switchboard) :
    TaskProgress × Dispatcher → Prop
  | waits (queue : Option Nat) (p' : Pass) (b' : Switchboard)
    (hp : (Progress.waiting p').Whole gops plan) (hq : b'.Leads queue p')
    (hs : b'.Serves [⟨ticket, queue, .pass p'⟩]) (hm : b.Moves channels b' (p.due ·) (p'.due ·)) :
    Carries gops plan channels d ticket p b (.waiting queue (.pass p'), { d with board := b' })
  | ends (lanes : List Lane) (b' : Switchboard) (hl : Lane.totalDropped lanes = 0)
    (hs : b'.Serves []) (hm : b.Moves channels b' (p.due ·) fun _ => []) :
    Carries gops plan channels d ticket p b
      (.finished (.streamEnded (.ok (fullReport gops plan))),
        { d with board := b', fanout := d.fanout.booked lanes })

section

variable {d : Dispatcher} {ticket : Nat} {p : Pass} {b : Switchboard} {queue : Option Nat}

theorem Carries.trans {p' : Pass} {b' : Switchboard} {r : TaskProgress × Dispatcher}
    (hm : b.Moves channels b' (p.due ·) (p'.due ·))
    (h : d.Carries gops plan channels ticket p' b' r) :
    d.Carries gops plan channels ticket p b r := by
  cases h with
  | waits queue q b' hp hq hs hm' => exact .waits queue q b' hp hq hs (hm.trans hm')
  | ends lanes b' hl hs hm' => exact .ends lanes b' hl hs (hm.trans hm')

theorem Carries.of_board {b' : Switchboard} {r : TaskProgress × Dispatcher}
    (h : Carries gops plan channels { d with board := b' } ticket p b r) :
    d.Carries gops plan channels ticket p b r := by
  cases h with
  | waits queue q b' hp hq hs hm => exact .waits queue q b' hp hq hs hm
  | ends lanes b' hl hs hm => exact .ends lanes b' hl hs hm

/-- A pass leaves its stop when its call, if it stands at one, is accepted. -/
theorem carries_resume (hl : d.fanout.live = channels)
    (hb : plan.blocks.map Block.channel = channels) (hd : channels.Nodup)
    (hp : (Progress.waiting p).Whole gops plan) (hs : d.board.Serves [])
    (hg : Switchboard.Gains channels p.call? b d.board) :
    d.Carries gops plan channels ticket p b (d.resume (.pass p) .accepted).value := by
  have hmoves : b.Moves channels d.board (p.due ·) (p.dueAfter ·) :=
    hg.moves fun c _ => p.due_eq hp.inStep hp.scope_nodup c
  rw [resume, Logged.value_bind]
  rcases Fanout.resume_of_whole hl hb hd hp with ⟨p', hr, hp', hdue⟩ | ⟨lanes, hr, hdropped, hdue⟩
  · rw [hr]
    refine .waits none p' d.board hp' (fun k hk => by cases hk)
      (Switchboard.serves_ready.mpr hs) ⟨hmoves.routes_eq, hmoves.size_eq, fun c hc => ?_⟩
    rw [hmoves.conserved c hc, hdue c hc]
  · rw [hr]
    refine .ends lanes d.board hdropped hs ⟨hmoves.routes_eq, hmoves.size_eq, fun c hc => ?_⟩
    rw [hmoves.conserved c hc, hdue c hc]

/-- One step carries a pass on. -/
theorem carries_step (hl : d.fanout.live = channels)
    (hb : plan.blocks.map Block.channel = channels) (hd : channels.Nodup)
    (hp : (Progress.waiting p).Whole gops plan) (hw : d.board.Wired channels)
    (hq : d.board.Leads queue p) (hs : d.board.Serves [⟨ticket, queue, .pass p⟩]) :
    d.Carries gops plan channels ticket p d.board (d.step ticket queue (.pass p)).value := by
  rw [step, Task.call?]
  cases hcall : p.call? with
  | none =>
    obtain rfl : queue = none := by
      cases queue with
      | none => rfl
      | some k =>
        obtain ⟨call, hc, -⟩ := hq k rfl
        cases hcall.symm.trans hc
    refine carries_resume hl hb hd hp (Switchboard.serves_ready.mp hs) ?_
    rw [hcall]
    exact ⟨rfl, rfl, fun c _ => (List.append_nil _).symm⟩
  | some call =>
    have hmem : call.channel ∈ channels :=
      hb ▸ hp.mem_channels _ (p.channel_call_mem_scope hcall)
    have hk : ∀ k ∈ queue, d.board.route? call.channel = some k := by
      intro k hk
      obtain ⟨call', hc, hr⟩ := hq k hk
      cases hcall.symm.trans hc
      exact hr
    have hsends := attempt_sends hw hs hmem hk
    rw [Logged.value_bind]
    generalize (d.attempt ticket call queue).value = r at hsends
    cases hsends with
    | sent b' hs' hg =>
      rw [← hcall] at hg
      exact (carries_resume (d := { d with board := b' }) hl hb hd hp hs' hg).of_board
    | waits k b' hk' hs' hg =>
      rw [← Switchboard.route?_congr hg.routes_eq] at hk'
      refine .waits (some k) p b' hp ?_ hs' (hg.moves fun c _ => rfl)
      intro j hj
      cases hj
      exact ⟨call, hcall, hk'⟩

end

/-- A pass is carried on by as many steps as it takes. -/
theorem carries_proceed {d : Dispatcher} (ticket limit : Nat) {queue : Option Nat} {p : Pass}
    (hl : d.fanout.live = channels) (hb : plan.blocks.map Block.channel = channels)
    (hd : channels.Nodup)
    (hp : (Progress.waiting p).Whole gops plan) (hw : d.board.Wired channels)
    (hq : d.board.Leads queue p) (hs : d.board.Serves [⟨ticket, queue, .pass p⟩]) :
    d.Carries gops plan channels ticket p d.board
      (d.proceed ticket limit queue (.pass p)).value := by
  induction limit generalizing d queue p with
  | zero => exact .waits queue p d.board hp hq hs .refl
  | succ limit ih =>
    have hstep := carries_step hl hb hd hp hw hq hs
    rw [proceed, Logged.value_bind]
    generalize (d.step ticket queue (.pass p)).value = r at hstep
    cases hstep with
    | ends lanes b' hdropped hs' hm => exact .ends lanes b' hdropped hs' hm
    | waits queue' p' b' hp' hq' hs' hm =>
      cases queue' with
      | some k => exact .waits (some k) p' b' hp' hq' hs' hm
      | none =>
        have hnext := ih (d := { d with board := b' }) hl hp' (hw.congr hm.routes_eq hm.size_eq)
          hq' hs'
        exact hnext.of_board.trans hm

end Dispatcher

end StreamFanout
