import Amplet.TracerouteRuns

/-!
# Probing a destination ends

There is a bound on the probes that are sent to a destination, as long as no
reply makes backward probing start again. A target that quotes its TTL as zero,
at the distance of the initial TTL, does so forever.
-/

namespace Amplet.TracerouteTermination
open List Failing LinkedList SocketAddress TracerouteProbe TracerouteLists TracerouteQueues TracerouteRefinement
open TracerouteSound TracerouteReplies TracerouteRuns

def sendsTo (s : ProbeList) : Event → Option ℕ
  | .send r => s.lists.ready.filter fun p => r.reaches (s.item p).addr
  | _ => none

def probesSent (p : ℕ) (steps : List (ProbeList × Event)) : ℕ :=
  steps.countP fun x => decide (sendsTo x.1 x.2 = some p)

/-- As many probes as attempts for every hop on the way forward and back, and every TTL before the
first reply. -/
def probeLimit : ℤ := (retryLimit + 1) * (2 * maxHopsInPath + maxInitialTtl)

/-- One that is not done has not been probed, or waits for a timer that is set, with probes left.
-/
def Ending (c : Config) (steps : List (ProbeList × Event)) : Except Fault ProbeList → Prop
  | .error _ => False
  | .ok s => ∃ pending ready outstanding done,
      Chain s.lists.next s.lists.pending pending ∧ Chain s.lists.next s.lists.ready ready ∧
      Chain s.lists.next s.lists.outstanding outstanding ∧ Chain s.lists.next s.lists.done done ∧
      (pending ++ ready ++ outstanding ++ done).Perm (range c.targets.length) ∧
      (∀ p ∈ pending, probesSent p steps = 0) ∧
      (∀ p ∈ ready, s.sendtimer = true ∧ (probesSent p steps : ℤ) < probeLimit) ∧
      (∀ p ∈ outstanding, s.timeout = true ∧ (probesSent p steps : ℤ) ≤ probeLimit) ∧
      ∀ p ∈ done, (probesSent p steps : ℤ) ≤ probeLimit

/-- The reply, if the callback is for one, is in time and from a hop, and does not
make backward probing start again. -/
def Proceeds (e : Endian) (s : ProbeList) (event : Event) : Prop :=
  ∀ p a now, ProbeList.replyTo e s event = some (p, a, now) →
    ¬BelowFirst a (s.item p) ∧ ¬Late e a now (s.item p) ∧ ¬Restarts e a (s.item p)

structure Budget (sent : ℕ → ℤ) (q : Queues) : Prop where
  pending : ∀ p ∈ q.pending, sent p = 0
  ready : ∀ p ∈ q.ready, sent p + work (q.item p) ≤ 204
  outstanding : ∀ p ∈ q.outstanding, sent p + work (q.item p) ≤ 205
  done : ∀ p ∈ q.done, sent p ≤ 204

section

variable {e : Endian} {c : Config} {s : ProbeList} {q q' : Queues} {lost : List ℕ} {event : Event}
  {steps : List (ProbeList × Event)} {n n' : ℕ → ℤ} {p : ℕ} {d : Dest} {m : Move}

theorem Sound.work_pos (h : Sound d) : 1 ≤ work d := by
  have httl := h.ttl
  have hattempts := h.attempts
  simp only [work]
  repeat' split
  all_goals omega

theorem Budget.congr (h : Budget n q) (hsame : ∀ p ∈ q.all, n' p = n p) : Budget n' q := by
  have hmem : ∀ {p}, p ∈ q.all ↔ p ∈ q.pending ∨ p ∈ q.ready ∨ p ∈ q.outstanding ∨ p ∈ q.done := by
    intro p
    simp only [Queues.all, mem_append, or_assoc]
  refine ⟨?_, ?_, ?_, ?_⟩
  · intro p hp
    rw [hsame p (hmem.2 (.inl hp))]
    exact h.pending p hp
  · intro p hp
    rw [hsame p (hmem.2 (.inr (.inl hp)))]
    exact h.ready p hp
  · intro p hp
    rw [hsame p (hmem.2 (.inr (.inr (.inl hp))))]
    exact h.outstanding p hp
  · intro p hp
    rw [hsame p (hmem.2 (.inr (.inr (.inr hp))))]
    exact h.done p hp

theorem Budget.settle (h : Budget n q) (hp : p ∉ q.all) (hfresh : ∀ p ∈ q.pending, ∃ t : Target, q.item p = t.item p)
    (hready : m = .ready → n p + work d ≤ 204) (hdone : n p ≤ 204) :
    Budget n (q.settle p d m) := by
  obtain ⟨hnpending, hnready, hnoutstanding, hndone⟩ := Queues.not_mem_all.1 hp
  have hother : ∀ p', p' ≠ p → (q.settle p d m).item p' = q.item p' :=
    fun p' hne => Queues.item_settle_of_ne q d m hne
  refine ⟨?_, ?_, ?_, ?_⟩
  · intro p' hp'
    refine h.pending p' ?_
    cases m with
    | ready => exact hp'
    | done => exact mem_of_mem_tail hp'
    | lost => exact hp'
  · intro p' hp'
    cases m with
    | ready =>
      rcases mem_append.1 hp' with hold | hnew
      · rw [hother p' (ne_of_mem_of_not_mem hold hnready)]
        exact h.ready p' hold
      · obtain rfl := mem_singleton.1 hnew
        simp only [Queues.settle, Function.update_self]
        exact hready rfl
    | done =>
      rcases mem_append.1 hp' with hold | hnew
      · rw [hother p' (ne_of_mem_of_not_mem hold hnready)]
        exact h.ready p' hold
      · have hwas := mem_of_mem_take hnew
        obtain ⟨t, ht⟩ := hfresh p' hwas
        rw [hother p' (ne_of_mem_of_not_mem hwas hnpending), h.pending p' hwas, ht]
        have := work_item t p'
        omega
    | lost =>
      rw [hother p' (ne_of_mem_of_not_mem hp' hnready)]
      exact h.ready p' hp'
  · intro p' hp'
    rw [Queues.outstanding_settle] at hp'
    rw [hother p' (ne_of_mem_of_not_mem hp' hnoutstanding)]
    exact h.outstanding p' hp'
  · intro p' hp'
    cases m with
    | ready => exact h.done p' hp'
    | done =>
      rcases mem_cons.1 hp' with rfl | hold
      · exact hdone
      · exact h.done p' hold
    | lost => exact h.done p' hp'

theorem probesSent_cons (p : ℕ) (s : ProbeList) (event : Event) (steps : List (ProbeList × Event)) :
    (probesSent p ((s, event) :: steps) : ℤ) = probesSent p steps + if sendsTo s event = some p then 1 else 0 := by
  rw [probesSent, countP_cons]
  simp only [decide_eq_true_eq, probesSent]
  split <;> simp

theorem sendsTo_nil (hs : Represents s q) (hready : q.ready = []) (r : Sending) : sendsTo s (.send r) = none := by
  have hhead : s.lists.ready = none := by
    rw [hs.linked.ready.chain.head_eq, hready]
    rfl
  rw [sendsTo, hhead]
  rfl

theorem sendsTo_cons {ready : List ℕ} (hs : Represents s q) (hready : q.ready = p :: ready) (r : Sending) :
    sendsTo s (.send r) = if r.reaches (q.item p).addr then some p else none := by
  have hhead : s.lists.ready = some p := by
    rw [hs.linked.ready.chain.head_eq, hready]
    rfl
  rw [sendsTo, hhead, Option.filter_some, hs.item]

theorem probesSent_of_none (h : sendsTo s event = none) (p : ℕ) :
    (probesSent p ((s, event) :: steps) : ℤ) = probesSent p steps := by
  rw [probesSent_cons, h]
  simp

theorem probesSent_of_ne {p' : ℕ} (h : ∀ p', sendsTo s event = some p' → p' = p) (hne : p' ≠ p) :
    (probesSent p' ((s, event) :: steps) : ℤ) = probesSent p' steps := by
  rw [probesSent_cons, if_neg fun hsome => hne (h p' hsome), add_zero]

theorem Budget.sent {r : Sending} {ready : List ℕ} (hs : Represents s q) (htracks : Tracks c q lost)
    (h : Budget (fun p => probesSent p steps) q) (hready : q.ready = p :: ready)
    (hprobed : Probed r (q.item p) d true) :
    Budget (fun p => probesSent p ((s, .send r) :: steps))
      { q with
        ready := ready
        outstanding := q.outstanding ++ [p]
        item := Function.update q.item p d } := by
  have hnot := (htracks.popReady hready).not_mem
  obtain ⟨hnpending, hnready, hnoutstanding, hndone⟩ := Queues.not_mem_all.1 hnot
  have hsends : sendsTo s (.send r) = some p := by
    rw [sendsTo_cons hs hready, if_pos (hprobed.reached rfl)]
  have hother : ∀ {p'}, p' ≠ p → (probesSent p' ((s, .send r) :: steps) : ℤ) = probesSent p' steps := by
    intro p' hne
    refine probesSent_of_ne (p := p) (fun p'' hsome => ?_) hne
    exact Option.some.inj (hsome.symm.trans hsends)
  have hbudget : (probesSent p steps : ℤ) + work (q.item p) ≤ 204 :=
    h.ready p (by rw [hready]; exact mem_cons_self ..)
  refine ⟨?_, ?_, ?_, ?_⟩
  · intro p' hp'
    rw [hother (ne_of_mem_of_not_mem hp' hnpending)]
    exact h.pending p' hp'
  · intro p' hp'
    have hne : p' ≠ p := ne_of_mem_of_not_mem hp' hnready
    rw [hother hne]
    change _ + work (Function.update q.item p d p') ≤ 204
    rw [Function.update_of_ne hne]
    exact h.ready p' (by rw [hready]; exact mem_cons_of_mem p hp')
  · intro p' hp'
    change _ + work (Function.update q.item p d p') ≤ 205
    rcases mem_append.1 hp' with hold | hnew
    · have hne : p' ≠ p := ne_of_mem_of_not_mem hold hnoutstanding
      rw [hother hne, Function.update_of_ne hne]
      exact h.outstanding p' hold
    · obtain rfl := mem_singleton.1 hnew
      rw [Function.update_self, hprobed.work rfl, probesSent_cons, if_pos hsends]
      omega
  · intro p' hp'
    rw [hother (ne_of_mem_of_not_mem hp' hndone)]
    exact h.done p' hp'

theorem Budget.without {q₁ : Queues} (h : Budget n q) (hp : p ∉ q₁.all)
    (hpending : q₁.pending = q.pending) (hready : ∀ p' ∈ q₁.ready, p' ∈ q.ready)
    (houtstanding : ∀ p' ∈ q₁.outstanding, p' ∈ q.outstanding) (hdone : q₁.done = q.done)
    (hitem : q₁.item = q.item) (hsame : ∀ p', p' ≠ p → n' p' = n p') : Budget n' q₁ := by
  refine Budget.congr (n := n) ⟨?_, ?_, ?_, ?_⟩ fun p' hp' =>
    hsame p' (ne_of_mem_of_not_mem hp' hp)
  · rw [hpending]
    exact h.pending
  · rw [hitem]
    exact fun p' hp' => h.ready p' (hready p' hp')
  · rw [hitem]
    exact fun p' hp' => h.outstanding p' (houtstanding p' hp')
  · rw [hdone]
    exact h.done

theorem Budget.refused {r : Sending} {ready : List ℕ} (hs : Represents s q)
    (htracks : Tracks c q lost) (h : Budget (fun p => probesSent p steps) q)
    (hready : q.ready = p :: ready) :
    Budget (fun p => probesSent p ((s, .send r) :: steps)) ({ q with ready := ready }.settle p d .done).stopIfIdle := by
  have hin : p ∈ q.ready := by
    rw [hready]
    exact mem_cons_self ..
  have hholds := htracks.popReady hready
  have hsends : ∀ p', sendsTo s (.send r) = some p' → p' = p := by
    intro p' hsome
    rw [sendsTo_cons hs hready] at hsome
    split at hsome
    · exact (Option.some.inj hsome).symm
    · cases hsome
  have hbefore : Budget (fun p => probesSent p ((s, .send r) :: steps))
      { q with ready := ready } := by
    refine h.without hholds.not_mem rfl ?_ (fun _ hp' => hp') rfl rfl fun p' hne => probesSent_of_ne hsends hne
    intro p' hp'
    rw [hready]
    exact mem_cons_of_mem p hp'
  have hafter := hbefore.settle (m := .done) (d := d) hholds.not_mem hholds.fresh nofun ?_
  · exact { hafter with }
  · have hbudget : (probesSent p steps : ℤ) + work (q.item p) ≤ 204 := h.ready p hin
    have hpos := Sound.work_pos (htracks.sound p (.inl hin))
    rw [probesSent_cons]
    split <;> omega

theorem Budget.answered {q₁ : Queues} (htracks : Tracks c q lost)
    (h : Budget (fun p => probesSent p steps) q) (hevent : sendsTo s event = none)
    (hp : p ∈ q.outstanding) (hrest : ∀ p' ∈ q₁.outstanding, p' ∈ q.outstanding)
    (hq₁ : q₁ = { q with outstanding := q₁.outstanding }) (hholds : Holds c q₁ p lost)
    (hshorter : m = .ready → work d < work (q.item p)) :
    Budget (fun p => probesSent p ((s, event) :: steps)) (q₁.settle p d m).stopIfIdle := by
  have hbefore : Budget (fun p => probesSent p ((s, event) :: steps)) q₁ := by
    refine h.without hholds.not_mem (by rw [hq₁]) ?_ hrest (by rw [hq₁]) (by rw [hq₁]) fun p' _ => probesSent_of_none hevent p'
    rw [hq₁]
    exact fun _ hp' => hp'
  have hbudget : (probesSent p steps : ℤ) + work (q.item p) ≤ 205 := h.outstanding p hp
  have hafter := hbefore.settle (m := m) (d := d) hholds.not_mem hholds.fresh ?_ ?_
  · exact { hafter with }
  · intro hm
    have hless := hshorter hm
    rw [probesSent_of_none hevent]
    omega
  · have hpos := Sound.work_pos (htracks.sound p (.inr hp))
    rw [probesSent_of_none hevent]
    omega

theorem Budget.step (hs : Represents s q) (htracks : Tracks c q lost)
    (h : Budget (fun p => probesSent p steps) q) (heffect : Effect e q event q')
    (hproceeds : ∀ p a now, Queues.replyTo e q event = some (p, a, now) → ¬Restarts e a (q.item p)) :
    Budget (fun p => probesSent p ((s, event) :: steps)) q' := by
  cases heffect with
  | nothing hreply hsilent hidle =>
    refine h.congr fun p _ => probesSent_of_none ?_ p
    cases event with
    | send r => exact sendsTo_nil hs (hidle r rfl) r
    | recv received => rfl
    | timeout => rfl
  | @ignored r hreply =>
    have hsame : Budget (fun p => probesSent p ((s, .recv (some r)) :: steps)) q :=
      h.congr fun p _ => probesSent_of_none rfl p
    exact { hsame with }
  | sent hready hprobed => exact h.sent hs htracks hready hprobed
  | refused hready hprobed => exact h.refused hs htracks hready
  | @replied r p a d m hreply hp hhop hreplied =>
    exact h.answered htracks rfl hp (fun _ => mem_of_mem_erase) rfl (htracks.erase hp)
      fun hm => hreplied.shorter hm (hproceeds p a r.now hreply)
  | @expired p rest d m houtstanding hexpired =>
    have hrest : ∀ p' ∈ ({ q with outstanding := rest } : Queues).outstanding, p' ∈ q.outstanding := by
      intro p' hp'
      rw [houtstanding]
      exact mem_cons_of_mem p hp'
    refine h.answered htracks rfl ?_ hrest rfl (htracks.popOutstanding houtstanding) hexpired.shorter
    rw [houtstanding]
    exact mem_cons_self ..

theorem Budget.initial (c : Config) : Budget (fun p => probesSent p []) (Queues.initial c) := by
  obtain ⟨hcreating, -⟩ := runTraceroute_represents c
  refine ⟨fun p _ => rfl, ?_, ?_, fun p _ => show (0 : ℤ) ≤ 204 by decide⟩
  · intro p hp
    obtain ⟨t, ht⟩ := hcreating.item p (by simp [Queues.all, hp])
    have hwork := work_item t p
    rw [ht]
    exact (zero_add (work (t.item p))).trans_le hwork
  · intro p hp
    rw [hcreating.outstanding] at hp
    cases hp

theorem run_budget (run : Run e c steps (.ok s)) (hall : ∀ x ∈ steps, Proceeds e x.1 x.2) :
    ∃ q, Represents s q ∧ Tracks c q [] ∧ Budget (fun p => probesSent p steps) q := by
  suffices hrun : ∃ q lost, Represents s q ∧ Tracks c q lost ∧ ((∀ x ∈ steps, Proceeds e x.1 x.2) →
        lost = [] ∧ Budget (fun p => probesSent p steps) q) by
    obtain ⟨q, lost, hs, htracks, h⟩ := hrun
    obtain ⟨rfl, hbudget⟩ := h hall
    exact ⟨q, hs, htracks, hbudget⟩
  refine run_induction (P := fun steps q lost => (∀ x ∈ steps, Proceeds e x.1 x.2) →
    lost = [] ∧ Budget (fun p => probesSent p steps) q) ?_ ?_ run rfl
  · exact fun _ => ⟨rfl, Budget.initial c⟩
  · intro steps s q lost event q' lost' hs htracks hlive hp heffect hkept hall
    obtain ⟨hlost, hbudget⟩ := hp fun x hx => hall x (mem_cons_of_mem _ hx)
    have hproceeds : ∀ p a now, Queues.replyTo e q event = some (p, a, now) →
        ¬Late e a now (q.item p) ∧ ¬Restarts e a (q.item p) := by
      intro p a now hreply
      rw [← hs.item]
      exact (hall _ (mem_cons_self ..) p a now ((replyTo_eq hs event).trans hreply)).2
    refine ⟨?_, hbudget.step hs htracks heffect fun p a now hreply => (hproceeds p a now hreply).2⟩
    rw [hkept, hlost]
    rintro ⟨p, a, now, hreply, hlate⟩
    exact (hproceeds p a now hreply).1 hlate

theorem Budget.ending (hs : Represents s q) (htracks : Tracks c q [])
    (h : Budget (fun p => probesSent p steps) q) : Ending c steps (.ok s) := by
  refine ⟨q.pending, q.ready, q.outstanding, q.done, hs.linked.pending, hs.linked.ready.chain,
    hs.linked.outstanding.chain, hs.linked.done, htracks.lost_eq_nil_iff.1 rfl, ?_, ?_, ?_, h.done⟩
  · exact fun p hp => Int.natCast_eq_zero.1 (h.pending p hp)
  · intro p hp
    refine ⟨hs.sending (ne_nil_of_mem hp), ?_⟩
    have hbudget : (probesSent p steps : ℤ) + work (q.item p) ≤ 204 := h.ready p hp
    have hpos := Sound.work_pos (htracks.sound p (.inl hp))
    exact show (probesSent p steps : ℤ) < 204 by omega
  · intro p hp
    refine ⟨hs.waiting.2 (ne_nil_of_mem hp), ?_⟩
    have hbudget : (probesSent p steps : ℤ) + work (q.item p) ≤ 205 := h.outstanding p hp
    have hpos := Sound.work_pos (htracks.sound p (.inr hp))
    exact show (probesSent p steps : ℤ) ≤ 204 by omega

end

/-- Whatever else the packets hold and however the callbacks follow each other. -/
theorem probing_ends {e : Endian} {c : Config} {steps : List (ProbeList × Event)}
    {o : Except Fault ProbeList} (run : Run e c steps o)
    (hall : ∀ x ∈ steps, Proceeds e x.1 x.2) : Ending c steps o := by
  cases run with
  | start =>
    obtain ⟨-, s, hs, hrepresents⟩ := runTraceroute_represents c
    rw [hs]
    exact (Budget.initial c).ending hrepresents (Tracks.initial c)
  | @step steps s event run live enabled =>
    have hbefore : ∀ x ∈ steps, Proceeds e x.1 x.2 :=
      fun x hx => hall x (mem_cons_of_mem _ hx)
    obtain ⟨q, hs, htracks, hbudget⟩ := run_budget run hbefore
    rcases step_outcome (e := e) hs htracks enabled with
      ⟨s', q', hs', hrepresents, heffect⟩ | ⟨p, a, now, hreply, hbelow, -⟩
    · have hafter : Run e c ((s, event) :: steps) (.ok s') := hs' ▸ run.step live enabled
      obtain ⟨q'', hs'', htracks'', hbudget''⟩ := run_budget hafter hall
      rw [hs']
      exact hbudget''.ending hs'' htracks''
    · exact absurd hbelow (hall _ (mem_cons_self ..) p a now hreply).1

def silent : List Event :=
  [.timeout, .send ⟨true, true, 5000000⟩, .timeout, .send ⟨true, true, 3000000⟩, .timeout, .send ⟨true, true, 1000000⟩]

theorem probing_ends_silent : allowed .little oneTarget silent = true ∧
      Ending oneTarget (trace .little oneTarget silent) (exec .little oneTarget silent) := by
  have hallowed : allowed .little oneTarget silent = true := by decide +kernel
  refine ⟨hallowed, probing_ends (exec_run .little oneTarget hallowed) fun x hx p a now hreply => ?_⟩
  have hevent := trace_events hx
  obtain ⟨s, event⟩ := x
  simp only [silent, mem_cons, not_mem_nil, or_false] at hevent
  rcases hevent with rfl | rfl | rfl | rfl | rfl | rfl
  all_goals cases hreply

section Rejections

structure Rejected (d : Dest) : Prop where
  addr : d.addr = some (.inet 0x0100007f)
  id : d.id = 0
  firstTtl : d.firstTtl = 3
  ttl : d.ttl = 3 ∧ d.firstResponse = 0 ∨ d.ttl = 2 ∧ d.firstResponse = 3

def rejection (ttl : ℕ) : Received :=
  ⟨.inet 0x0300000a, errorPacket 3 1 (1024 * ttl) 9000 1, 100000⟩

def rejectionAnswer (ttl : ℕ) : Answer :=
  { source := .inet 0x0300000a, index := 1024 * ttl, type := 3, code := 1, embeddedTtl := 1 }

variable {d : Dest} {q : Queues}

theorem readPacket_rejection (ttl : ℕ) (h : ttl = 3 ∨ ttl = 2) :
    readPacket .little 9000 1 (rejection ttl).source (rejection ttl).packet = .ok (some (rejectionAnswer ttl)) := by
  rcases h with rfl | rfl <;> rfl

theorem delivered_rejection (ttl : ℕ) : (rejection ttl).Delivered := by
  have hversion : (rejection ttl).packet 0 = 0x45 := rfl
  change ((rejection ttl).packet 0).toNat / 16 = 4 ∧ 5 ≤ ((rejection ttl).packet 0).toNat % 16
  rw [hversion]
  decide

theorem Rejected.sendProbe (h : Rejected d) (time : ℤ) : ∃ d', sendProbe ⟨true, true, time⟩ d = .ok (d', true) ∧ Rejected d' := by
  have httl : 1 ≤ d.ttl ∧ d.ttl ≤ 30 := by rcases h.ttl with h | h <;> omega
  obtain ⟨i, hi, -⟩ := hopIndex_eq httl.1 httl.2
  have hreaches : Sending.reaches ⟨true, true, time⟩ d.addr = true := by
    rw [h.addr]
    rfl
  rw [TracerouteProbe.sendProbe, if_pos hreaches, hi]
  exact ⟨_, rfl, h.addr, h.id, h.firstTtl, h.ttl⟩

theorem unexpected_rejectionAnswer (ttl : ℕ) : (rejectionAnswer ttl).unexpected .little d = false :=
  rfl

theorem endOfPath_rejected (ttl : ℕ) (haddr : d.addr = some (.inet 0x0100007f)) (hid : d.id = 0)
    (hfirst : d.firstTtl = 3) (hresponse : d.firstResponse = 3) :
    ∃ d', endOfPath (rejectionAnswer ttl) d = (d', .ready) ∧ Rejected d' := by
  have hforward : ¬(d.doneForward = true ∧ (rejectionAnswer ttl).terminal = 1) :=
    fun h => absurd h.2 (show ¬(2 : ℤ) = 1 by decide)
  have hback : ¬int8 (3 - 1) = 0 := by decide
  simp only [endOfPath, if_neg hforward, Dest.reprobe, hresponse, if_neg hback]
  exact ⟨_, rfl, haddr, hid, hfirst, .inr ⟨rfl, rfl⟩⟩

theorem recordReply_rejected (h : Rejected d) (ttl : ℕ) (now : ℤ) :
    ∃ d', recordReply .little (rejectionAnswer ttl) now d.ttl d = .ok (d', .ready) ∧ Rejected d' := by
  have httl : 1 ≤ d.ttl ∧ d.ttl ≤ 30 := by rcases h.ttl with h | h <;> omega
  have hlast : ¬(d.doneForward = true ∧ d.ttl = 1) := by rcases h.ttl with h | h <;> omega
  have hfirst : (if d.firstResponse = 0 then int8 d.ttl else d.firstResponse) = 3 := by
    rcases h.ttl with ⟨httl, hresponse⟩ | ⟨httl, hresponse⟩
    · rw [if_pos hresponse, httl]
      rfl
    · rw [if_neg (by omega), hresponse]
  obtain ⟨i, hi, -⟩ := hopIndex_eq httl.1 httl.2
  have hterminal : (rejectionAnswer ttl).terminal ≠ 0 ∨ maxHopsInPath ≤ d.ttl :=
    .inl (show (2 : ℤ) ≠ 0 by decide)
  simp only [recordReply, hfirst, hi, ok_bind, unexpected_rejectionAnswer, Bool.false_eq_true,
    if_false, expectedReply, Dest.setHop, if_neg hlast, if_pos hterminal]
  obtain ⟨d', hend, hd'⟩ := endOfPath_rejected ttl (d := { d with
    firstResponse := 3
    hop := _ }) h.addr h.id h.firstTtl rfl
  rw [hend]
  exact ⟨d', rfl, hd'⟩

theorem Rejected.processReply (h : Rejected d) (ttl : ℕ) (now : ℤ) :
    ∃ d', processReply .little (rejectionAnswer ttl) now d = .ok (d', .ready) ∧ Rejected d' := by
  rcases h.ttl with ⟨httl, hresponse⟩ | ⟨httl, hresponse⟩
  · have hhit : (rejectionAnswer ttl).terminal ≠ 0 ∧ d.ttl = d.firstTtl :=
      ⟨by rw [show (rejectionAnswer ttl).terminal = 2 from rfl]; decide, by rw [httl, h.firstTtl]⟩
    have hdistance : (3 : ℤ) - (rejectionAnswer ttl).embeddedTtl + 1 = 3 := rfl
    have hfits : ¬((3 : ℤ) < 0 ∨ maxHopsInPath < 3) := by decide
    have hindex : hopIndex 3 = .ok 2 := rfl
    rw [TracerouteProbe.processReply, if_pos hhit, h.firstTtl]
    simp only [hdistance, if_neg hfits, hindex, ok_bind]
    obtain ⟨d', hd'⟩ : ∃ d' : Dest, d' = { d with ttl := int8 3, firstTtl := 3 }.setHop 2
      fun hop => { hop with timeSent := (d.hop 2).timeSent } := ⟨_, rfl⟩
    have hrejected : Rejected d' := by
      rw [hd']
      exact ⟨h.addr, h.id, rfl, .inl ⟨rfl, hresponse⟩⟩
    have httl' : d'.ttl = 3 := by
      rw [hd']
      rfl
    have hrecord := recordReply_rejected hrejected ttl now
    rw [httl', hd'] at hrecord
    exact hrecord
  · have hbelow : ¬((rejectionAnswer ttl).terminal ≠ 0 ∧ d.ttl = d.firstTtl) := by
      rw [httl, h.firstTtl]
      exact fun hhit => absurd hhit.2 (by decide)
    rw [TracerouteProbe.processReply, if_neg hbelow]
    exact recordReply_rejected h ttl now

structure Cycling (ready outstanding : List ℕ) (q : Queues) : Prop where
  pending : q.pending = []
  ready : q.ready = ready
  outstanding : q.outstanding = outstanding
  done : q.done = []
  stopped : q.stopped = false
  ident : q.ident = 9000
  count : q.count = 1
  item : Rejected (q.item 0)

theorem Cycling.send (h : Cycling [0] [] q) (time : ℤ) :
    ∃ q', q.step .little (.send ⟨true, true, time⟩) = .ok q' ∧ Cycling [] [0] q' := by
  obtain ⟨d, hsend, hd⟩ := h.item.sendProbe time
  rw [Queues.step, Queues.send, h.ready]
  simp only [hsend, ok_bind, if_true]
  refine ⟨_, rfl, { h with ready := rfl, outstanding := ?_, item := ?_ }⟩
  · rw [h.outstanding]
    rfl
  · change Rejected (Function.update q.item 0 d 0)
    rwa [Function.update_self]

theorem Cycling.recv (h : Cycling [] [0] q) : ∃ q', q.step .little (.recv (some (rejection (q.item 0).ttl.toNat))) = .ok q' ∧
      Cycling [0] [] q' := by
  obtain ⟨d, hprocess, hd⟩ := h.item.processReply (q.item 0).ttl.toNat 100000
  have httl : (q.item 0).ttl = 3 ∨ (q.item 0).ttl = 2 := by rcases h.item.ttl with h | h <;> omega
  have hread := readPacket_rejection (q.item 0).ttl.toNat (by omega)
  have hanswers : q.Answers (rejectionAnswer (q.item 0).ttl.toNat) 0 := by
    rw [Queues.Answers, h.item.id, rejectionAnswer]
    dsimp only
    omega
  have hfind : q.outstanding.find? (fun p => q.Answers (rejectionAnswer (q.item 0).ttl.toNat) p) = some 0 := by
    rw [h.outstanding]
    exact find?_cons_of_pos (decide_eq_true hanswers)
  have hnow : (rejection (q.item 0).ttl.toNat).now = 100000 := rfl
  rw [Queues.step, Queues.recv, h.ident, h.count, hread, ok_bind]
  simp only [Queues.reply, hfind, hnow, hprocess, ok_bind]
  refine ⟨_, rfl, { h with ready := ?_, outstanding := ?_, item := ?_, stopped := ?_ }⟩
  · change q.ready ++ [0] = [0]
    rw [h.ready]
    rfl
  · change q.outstanding.erase 0 = []
    rw [h.outstanding]
    rfl
  · change (q.stopped || (_ && (q.ready ++ [0]).isEmpty)) = false
    rw [h.stopped, h.ready]
    simp
  · change Rejected (Function.update q.item 0 d 0)
    rwa [Function.update_self]

theorem cycling_initial : Cycling [0] [] (Queues.initial oneTarget) :=
  ⟨rfl, rfl, rfl, rfl, rfl, rfl, rfl, ⟨rfl, rfl, by decide +kernel, .inl ⟨by decide +kernel, rfl⟩⟩⟩

section

variable {ready outstanding : List ℕ} (h : Cycling ready outstanding q)
  (hall : ∀ p ∈ outstanding, p = 0)
include h hall

theorem Cycling.inHops : q.InHops := by
  intro p hp
  rw [h.outstanding] at hp
  have httl : 1 ≤ (q.item 0).ttl ∧ (q.item 0).ttl ≤ 30 := by rcases h.item.ttl with h | h <;> omega
  obtain ⟨i, hi, -⟩ := hopIndex_eq httl.1 httl.2
  rw [hall p hp]
  exact ⟨i, hi⟩

theorem Cycling.step {s : ProbeList} {q' : Queues} {event : Event}
    {steps : List (ProbeList × Event)} (run : Run .little oneTarget steps (.ok s))
    (hs : Represents s q) (hstep : q.step .little event = .ok q') (henabled : Enabled s event) :
    ∃ s', Run .little oneTarget ((s, event) :: steps) (.ok s') ∧ Represents s' q' := by
  have hlive : s.stopped = false := hs.stopped.trans h.stopped
  have hrun := run.step hlive henabled
  have hrefines := step_refines .little hs (h.inHops hall) henabled
  rw [hstep] at hrefines
  generalize TracerouteLists.step .little s event = o at hrun hrefines
  cases hrefines with
  | @ok s' q' hs' => exact ⟨s', hrun, hs'⟩

end

theorem cycling_forever (n : ℕ) : ∃ steps s q, Run .little oneTarget steps (.ok s) ∧ Represents s q ∧ Cycling [0] [] q ∧
      probesSent 0 steps = n := by
  induction n with
  | zero =>
    obtain ⟨-, s, hs, hrepresents⟩ := runTraceroute_represents oneTarget
    exact ⟨[], s, _, hs ▸ .start, hrepresents, cycling_initial, rfl⟩
  | succ n ih =>
    obtain ⟨steps, s, q, hrun, hs, hq, hcount⟩ := ih
    obtain ⟨q₁, hsend, hq₁⟩ := hq.send 0
    have hready : q.ready ≠ [] := by
      rw [hq.ready]
      exact cons_ne_nil _ _
    obtain ⟨s₁, hrun₁, hs₁⟩ := hq.step nofun hrun hs hsend (hs.sending hready)
    obtain ⟨q₂, hrecv, hq₂⟩ := hq₁.recv
    obtain ⟨s₂, hrun₂, hs₂⟩ := hq₁.step (by simp) hrun₁ hs₁ hrecv (delivered_rejection _)
    refine ⟨_, s₂, q₂, hrun₂, hs₂, hq₂, ?_⟩
    have hsends : sendsTo s (.send ⟨true, true, 0⟩) = some 0 := by
      rw [sendsTo_cons hs hq.ready, hq.item.addr]
      rfl
    have hsent := probesSent_cons 0 s (.send ⟨true, true, 0⟩) steps
    have hreceived := probesSent_cons 0 s₁ (.recv (some (rejection (q₁.item 0).ttl.toNat))) ((s, .send ⟨true, true, 0⟩) :: steps)
    rw [if_neg (by nofun)] at hreceived
    rw [if_pos hsends] at hsent
    omega

end Rejections

theorem rejections_restart_probing : ¬∃ limit : ℕ, ∀ steps s, Run .little oneTarget steps (.ok s) → s.lists.done = none →
      probesSent 0 steps ≤ limit := by
  rintro ⟨limit, hlimit⟩
  obtain ⟨steps, s, q, hrun, hs, hq, hcount⟩ := cycling_forever (limit + 1)
  have hdone : s.lists.done = none := by
    have hchain := hs.linked.done
    rw [hq.done] at hchain
    exact hchain
  have := hlimit steps s hrun hdone
  omega

end Amplet.TracerouteTermination
