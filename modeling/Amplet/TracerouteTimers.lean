import Amplet.TracerouteRuns

/-!
# The timers of the traceroute test

A timer is set exactly when something waits for it, so the assertions about the
lists, the timers and the TTL hold.
-/

namespace Amplet.TracerouteTimers
open List LinkedList SocketAddress TracerouteProbe TracerouteLists TracerouteQueues TracerouteRefinement
open TracerouteRuns

structure InStep (s : ProbeList) : Prop where
  sendtimer : s.sendtimer = true ↔ s.lists.ready ≠ none
  timeout : s.timeout = true ↔ s.lists.outstanding ≠ none
  ready : ∃ ready, Chain s.lists.next s.lists.ready ready ∧ s.lists.readyEnd = ready.getLast?
  outstanding : ∃ outstanding, Chain s.lists.next s.lists.outstanding outstanding ∧ s.lists.outstandingEnd = outstanding.getLast?

def TimersHold : Except Fault ProbeList → Prop
  | .ok s => InStep s
  | .error fault => fault ≠ .assertion ∧ fault ≠ .null

section

variable {e : Endian} {c : Config} {s : ProbeList} {q q' : Queues} {event : Event}

theorem pending_settle (q : Queues) (p : ℕ) (d : Dest) (m : Move) : (q.settle p d m).pending.length ≤ q.pending.length := by
  cases m with
  | ready => exact le_refl _
  | done =>
    change q.pending.tail.length ≤ q.pending.length
    rw [length_tail]
    omega
  | lost => exact le_refl _

theorem pending_effect (h : Effect e q event q') : q'.pending.length ≤ q.pending.length := by
  cases h with
  | nothing | ignored | sent => exact le_refl _
  | refused hready hprobed => exact pending_settle { q with ready := _ } _ _ _
  | replied | expired => exact pending_settle { q with outstanding := _ } _ _ _

theorem pending_initial (hwindow : 1 ≤ c.window) (htargets : c.targets ≠ []) :
    (Queues.initial c).pending.length < c.targets.length := by
  obtain ⟨hcreating, -⟩ := runTraceroute_represents c
  have hready : (Queues.initial c).ready ≠ [] :=
    Queues.ready_create _ _ _ _ (.inr ⟨by omega, htargets⟩)
  have hlength := hcreating.all.length_eq
  have hpos : 0 < (Queues.initial c).ready.length := length_pos_iff.2 hready
  simp only [Queues.all, length_append, length_range] at hlength
  omega

theorem inStep_of_represents (h : Represents s q) (hpending : q.pending.length < q.count) : InStep s where
  sendtimer := by
    have hnil := h.linked.ready.chain.eq_nil_iff
    rw [ne_eq, hnil]
    constructor
    · intro hset hempty
      have := (h.unsent hset hempty).2
      omega
    · exact h.sending
  timeout := by
    rw [ne_eq, h.linked.outstanding.chain.eq_nil_iff]
    exact h.waiting
  ready := ⟨q.ready, h.linked.ready.chain, h.linked.ready.last_eq⟩
  outstanding := ⟨q.outstanding, h.linked.outstanding.chain, h.linked.outstanding.last_eq⟩

theorem run_pending {steps : List (ProbeList × Event)} (run : Run e c steps (.ok s))
    (hwindow : 1 ≤ c.window) (htargets : c.targets ≠ []) :
    ∃ q lost, Represents s q ∧ Tracks c q lost ∧ q.pending.length < c.targets.length :=
  run_induction (P := fun _ q _ => q.pending.length < c.targets.length) (pending_initial hwindow htargets)
    (fun _ _ _ hpending heffect _ => (pending_effect heffect).trans_lt hpending) run rfl

end

theorem timers_in_step {e : Endian} {c : Config} {steps : List (ProbeList × Event)}
    {o : Except Fault ProbeList} (run : Run e c steps o) (hwindow : 1 ≤ c.window)
    (htargets : c.targets ≠ []) : TimersHold o := by
  cases run with
  | start =>
    obtain ⟨-, s, hs, hrepresents⟩ := runTraceroute_represents c
    rw [hs]
    refine inStep_of_represents hrepresents ?_
    rw [Queues.count_initial]
    exact pending_initial hwindow htargets
  | @step steps s event run live enabled =>
    obtain ⟨q, lost, hs, htracks, hpending⟩ := run_pending run hwindow htargets
    rcases step_outcome (e := e) hs htracks enabled with
      ⟨s', q', hs', hrepresents, heffect⟩ | ⟨p, a, now, -, -, hfault⟩
    · rw [hs']
      refine inStep_of_represents hrepresents ?_
      obtain ⟨lost', htracks', -⟩ := htracks.step heffect
      rw [htracks'.count]
      exact (pending_effect heffect).trans_lt hpending
    · rw [hfault]
      exact ⟨by decide, by decide⟩

def twoTargets : Config :=
  { targets :=
      [{ addr := none, random := ⟨0, randomLimit_pos⟩ },
        { addr := some (.inet 0x0100007f), random := ⟨0, randomLimit_pos⟩ }]
    window := 1
    ident := 9000 }

def unanswered : List Event :=
  [.timeout, .send ⟨true, true, 5000000⟩, .timeout, .send ⟨true, true, 3000000⟩, .timeout,
    .send ⟨true, true, 1000000⟩, .send ⟨true, true, 1000000⟩]

theorem timers_in_step_unanswered : allowed .little twoTargets unanswered = true ∧
      TimersHold (exec .little twoTargets unanswered) := by
  have hallowed : allowed .little twoTargets unanswered = true := by decide +kernel
  exact ⟨hallowed, timers_in_step (exec_run .little twoTargets hallowed) (by decide) (by simp [twoTargets])⟩

end Amplet.TracerouteTimers
