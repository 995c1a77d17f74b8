import Amplet.TracerouteQueues

/-!
# The callbacks refine the queues

Every callback of the event loop does to the linked lists what it does to plain
lists of destinations, with the same faults, and keeps the timers in step.
-/

namespace Amplet.TracerouteRefinement
open List Function Option Failing SocketAddress TracerouteProbe TracerouteLists TracerouteQueues

structure Shows (s : ProbeList) (q : Queues) : Prop where
  linked : Linked s.lists q
  item : s.item = q.item
  stopped : s.stopped = q.stopped
  ident : s.ident = q.ident
  count : s.count = q.count
  few : q.all.length ≤ q.count

/-- The send timer can only be set for nothing before the first probe. -/
structure Represents (s : ProbeList) (q : Queues) : Prop extends Shows s q where
  sending : q.ready ≠ [] → s.sendtimer = true
  unsent : s.sendtimer = true → q.ready = [] → q.outstanding = [] ∧ q.pending.length = q.count
  waiting : s.timeout = true ↔ q.outstanding ≠ []

inductive Refines : Except Fault ProbeList → Except Fault Queues → Prop
  | ok {s : ProbeList} {q : Queues} (h : Represents s q) : Refines (.ok s) (.ok q)
  | error (fault : Fault) : Refines (.error fault) (.error fault)

section Callbacks

variable {s : ProbeList} {q : Queues} {p : ℕ} {d : Dest}

theorem settle_linked (h : Linked s.lists q) (hp : p ∉ q.all) (hitem : s.item = update q.item p d) (m : Move) : ∃ l n started,
      s.settle p m = .ok ({ s with lists := l, item := (q.settle p d m).item, doneCount := n }, started) ∧
      Linked l (q.settle p d m) ∧
      (0 < started ↔ q.ready = [] ∧ (q.settle p d m).ready ≠ []) := by
  cases m with
  | ready =>
    obtain ⟨l, heq, hl⟩ := h.appendReadyItem hp
    refine ⟨l, s.doneCount, if q.ready = [] then 1 else 0, ?_, { hl with }, ?_⟩
    · simp only [ProbeList.settle, heq, bind, Except.bind, Queues.settle, ← hitem]
    · simp only [Queues.settle]
      split <;> simp_all
  | done =>
    have hpushed := h.pushDone hp
    obtain ⟨l, heq, hl⟩ := hpushed.enqueueNextPending
    refine ⟨l, (s.doneCount + 1) % 2 ^ 32, if q.ready = [] ∧ q.pending ≠ [] then 1 else 0, ?_, { hl with }, ?_⟩
    · simp only [ProbeList.settle, ProbeList.setDoneItem, heq, bind, Except.bind, Queues.settle,
        ProbeList.setItem, hitem, update_self, update_idem]
    · simp only [Queues.settle]
      split <;> simp_all
  | lost =>
    refine ⟨s.lists, s.doneCount, 0, ?_, { h with }, ?_⟩
    · simp only [ProbeList.settle, Queues.settle, ← hitem]
    · simp [Queues.settle]

theorem Shows.setTimers (h : Shows s q) (sendtimer timeout : Bool) :
    Shows { s with sendtimer := sendtimer, timeout := timeout } q :=
  { h with }

theorem startSendtimer_eq {needed : Bool} (h : needed = true → s.sendtimer = false) :
    s.startSendtimer needed = .ok { s with sendtimer := needed || s.sendtimer } := by
  cases needed with
  | false => rfl
  | true =>
    rw [ProbeList.startSendtimer, if_pos rfl, h rfl, if_neg (by decide)]
    rfl

theorem Shows.stopIfIdle (h : Shows s q) : Shows
    { s with stopped := s.stopped || (q.outstanding.isEmpty && q.ready.isEmpty) } q.stopIfIdle :=
  { linked := { h.linked with }
    item := h.item
    stopped := by rw [Queues.stopIfIdle, h.stopped]
    ident := h.ident
    count := h.count
    few := h.few }

theorem restartTimeout_eq (h : q.InHops) (hs : Shows s q) (hp : p ∈ q.outstanding) :
    s.restartTimeout p = .ok { s with timeout := true } := by
  obtain ⟨i, hi⟩ := h p hp
  simp only [ProbeList.restartTimeout, hs.item, hi, ok_bind]

theorem afterPacket_refines {s' : ProbeList} {q' : Queues} {started : ℤ} (h : Represents s q)
    (h' : Shows s' q') (hsendtimer : s'.sendtimer = s.sendtimer) (htimeout : s'.timeout = s.timeout)
    (hstarted : 0 < started ↔ q.ready = [] ∧ q'.ready ≠ [])
    (hready : q.ready ≠ [] → q'.ready ≠ []) (hsub : q'.outstanding ⊆ q.outstanding)
    (hchange : q' = q ∨ q.outstanding ≠ []) (hhops : q'.InHops) :
    Refines (s'.afterPacket started s.lists.outstanding) (.ok q'.stopIfIdle) := by
  obtain ⟨armed, hstart, hsending, hunsent⟩ : ∃ armed, s'.startSendtimer (0 < started) = .ok { s' with sendtimer := armed } ∧
      (q'.ready ≠ [] → armed = true) ∧
      (armed = true → q'.ready = [] → q'.outstanding = [] ∧ q'.pending.length = q'.count) := by
    by_cases hpos : 0 < started
    · obtain ⟨hempty, hfilled⟩ := hstarted.1 hpos
      have hunset : s'.sendtimer = false := by
        rw [hsendtimer, Bool.eq_false_iff]
        intro hset
        rcases hchange with rfl | hne
        · exact hfilled hempty
        · exact hne (h.unsent hset hempty).1
      refine ⟨true, ?_, fun _ => rfl, fun _ hnone => absurd hnone hfilled⟩
      rw [startSendtimer_eq fun _ => hunset, decide_eq_true hpos, Bool.true_or]
    · refine ⟨s.sendtimer, ?_, fun hne => ?_, fun hset hnone => ?_⟩
      · rw [ProbeList.startSendtimer, if_neg (by simpa using hpos), ← hsendtimer]
      · exact h.sending fun hempty => hpos (hstarted.2 ⟨hempty, hne⟩)
      · have hempty : q.ready = [] := by
          by_contra hne
          exact hready hne hnone
        have hinitial := h.unsent hset hempty
        rcases hchange with rfl | hne
        · exact hinitial
        · exact absurd hinitial.1 hne
  rw [ProbeList.afterPacket, hstart, ok_bind]
  cases houtstanding : q'.outstanding with
  | nil =>
    have hhead : s'.lists.outstanding = none := by
      rw [h'.linked.outstanding.chain.head_eq, houtstanding]
      rfl
    have hshown := (h'.setTimers armed false).stopIfIdle
    rw [houtstanding, ← h'.linked.ready_isNone] at hshown
    simp only [hhead]
    refine .ok { hshown with sending := hsending, unsent := hunsent, waiting := ?_ }
    simp [Queues.stopIfIdle, houtstanding]
  | cons p rest =>
    have hne : q'.outstanding ≠ [] := by rw [houtstanding]; simp
    have hhead : s'.lists.outstanding = some p := by
      rw [h'.linked.outstanding.chain.head_eq, houtstanding]
      rfl
    have hwas : q.outstanding ≠ [] := fun hnil => by
      have hmem := hsub (a := p) (by rw [houtstanding]; simp)
      rw [hnil] at hmem
      exact not_mem_nil hmem
    rw [Queues.stopIfIdle_of_ne hne]
    simp only [hhead]
    split
    · rw [restartTimeout_eq hhops (h'.setTimers armed s'.timeout) (by rw [houtstanding]; simp)]
      exact .ok { h'.setTimers armed true with
        sending := hsending, unsent := hunsent, waiting := iff_of_true rfl hne }
    · have htimer : s'.timeout = true := by rw [htimeout]; exact h.waiting.2 hwas
      exact .ok { h'.setTimers armed s'.timeout with
        sending := hsending, unsent := hunsent, waiting := iff_of_true htimer hne }

theorem Shows.settle (h : Shows s q) (hp : p ∉ q.all) (hroom : q.all.length < q.count) (d : Dest) (m : Move) :
    ∃ s' started, (s.setItem p d).settle p m = .ok (s', started) ∧ Shows s' (q.settle p d m) ∧
      (0 < started ↔ q.ready = [] ∧ (q.settle p d m).ready ≠ []) ∧
      s'.sendtimer = s.sendtimer ∧ s'.timeout = s.timeout := by
  have hitem : (s.setItem p d).item = update q.item p d := by
    rw [ProbeList.setItem, h.item]
  have hlinked : Linked (s.setItem p d).lists q := h.linked
  obtain ⟨l, n, started, hsettle, hl, hstarted⟩ := settle_linked hlinked hp hitem m
  refine ⟨_, started, hsettle, ?_, hstarted, rfl, rfl⟩
  refine
    { linked := hl, item := rfl, stopped := ?_, ident := ?_, count := ?_, few := ?_ }
  · rw [Queues.stopped_settle]
    exact h.stopped
  · rw [Queues.ident_settle]
    exact h.ident
  · rw [Queues.count_settle]
    exact h.count
  · have hlength := (q.all_settle p d m).length_eq
    rw [Queues.count_settle, hlength]
    split
    · exact hroom.le
    · exact hroom

theorem Shows.take {l : Lists} (h : Shows s q) (hp : p ∈ q.outstanding)
    (hl : Linked l { q with outstanding := q.outstanding.erase p }) :
    Shows { s with lists := l } { q with outstanding := q.outstanding.erase p } ∧
      p ∉ Queues.all { q with outstanding := q.outstanding.erase p } ∧
      (Queues.all { q with outstanding := q.outstanding.erase p }).length < q.count := by
  have hperm := Queues.perm_erase hp
  have hlength : q.all.length = (Queues.all { q with outstanding := q.outstanding.erase p }).length + 1 := hperm.length_eq
  have hfew := h.few
  refine ⟨{ h with linked := hl, few := ?_ }, ?_, ?_⟩
  · change (Queues.all { q with outstanding := q.outstanding.erase p }).length ≤ q.count
    omega
  · exact (nodup_cons.1 (hperm.nodup_iff.1 h.linked.nodup)).1
  · omega

theorem reply_refines (e : Endian) (a : Answer) (now : ℤ) (h : Represents s q) (hhops : q.InHops) : Refines (do
        let (s', started) ← s.processAnswer e a now
        s'.afterPacket started s.lists.outstanding)
      (q.reply e a now) := by
  have hlength : q.outstanding.length ≤ q.count := by
    have hfew := h.few
    simp only [Queues.all, length_append] at hfew
    omega
  have hfind := h.linked.findOutstandingItem (fun p => q.Answers a p) hlength
  have hanswers : (fun p => decide (s.Answers a p)) = fun p => decide (q.Answers a p) := by
    funext p
    rw [decide_eq_decide, ProbeList.Answers, Queues.Answers, h.item]
  rw [Queues.reply, ProbeList.processAnswer]
  cases hfound : q.outstanding.find? fun p => q.Answers a p with
  | none =>
    rw [hfound] at hfind
    rw [← hanswers, ← h.count] at hfind
    simp only [hfind, ok_bind]
    exact afterPacket_refines h h.toShows rfl rfl (by simp) id (Subset.refl _) (.inl rfl) hhops
  | some p =>
    rw [hfound] at hfind
    obtain ⟨l, hl, hlinked⟩ := hfind
    have hp : p ∈ q.outstanding := mem_of_find?_eq_some hfound
    obtain ⟨hshows, hnot, hroom⟩ := h.toShows.take hp hlinked
    rw [← hanswers, ← h.count] at hl
    simp only [hl, congrFun h.item p]
    cases hreply : processReply e a now (q.item p) with
    | error fault => exact .error fault
    | ok result =>
      obtain ⟨d, move⟩ := result
      obtain ⟨s', started, hsettle, hs', hstarted, hsendtimer, htimeout⟩ :=
        hshows.settle hnot hroom d move
      simp only [ok_bind, hsettle]
      refine afterPacket_refines h hs' hsendtimer htimeout hstarted ?_ ?_ (.inr ?_) ?_
      · exact fun hne => Queues.ready_settle _ p d move hne
      · rw [Queues.outstanding_settle]
        exact erase_subset
      · exact ne_nil_of_mem hp
      · exact hhops.settle (Queues.not_mem_all.1 hnot).2.2.1 erase_subset rfl d move

theorem recv_refines (e : Endian) (r : Received) (h : Represents s q) (hhops : q.InHops) :
    Refines (recvProbeCallback e (some r) s) (q.recv e r) := by
  simp only [recvProbeCallback, processPacket, Queues.recv]
  rw [h.ident, h.count]
  cases hread : readPacket e q.ident q.count r.source r.packet with
  | error fault => exact .error fault
  | ok answer =>
    cases answer with
    | none =>
      have hneg : (0 : ℤ) < -1 ↔ q.ready = [] ∧ q.ready ≠ [] := by simp
      exact afterPacket_refines h h.toShows rfl rfl hneg id (Subset.refl _) (.inl rfl) hhops
    | some a => exact reply_refines e a r.now h hhops

theorem afterTimeout_refines (h : Shows s q) (hunsent : q.ready = [] → s.sendtimer = false)
    (htimeout : s.timeout = false) (hhops : q.InHops) :
    Refines s.afterTimeout (.ok q.stopIfIdle) := by
  obtain ⟨needed, hneeded⟩ : ∃ needed : Bool, needed = decide (s.sendtimer = false ∧ s.lists.ready.isSome = true) := ⟨_, rfl⟩
  have hunset : needed = true → s.sendtimer = false := by
    intro hset
    exact (of_decide_eq_true (hneeded.symm.trans hset)).1
  rw [ProbeList.afterTimeout, ← hneeded, startSendtimer_eq hunset, ok_bind]
  have hsending : q.ready ≠ [] → (needed || s.sendtimer) = true := by
    intro hne
    have hsome : s.lists.ready.isSome = true := by
      rw [← not_isNone, h.linked.ready_isNone]
      simpa using hne
    cases hset : s.sendtimer <;> simp [hneeded, hset, hsome]
  have hidle : (needed || s.sendtimer) = true → q.ready = [] → q.outstanding = [] ∧ q.pending.length = q.count := by
    intro hset hnil
    have hnone : s.lists.ready.isNone = true := by rw [h.linked.ready_isNone, hnil]; rfl
    rw [hneeded, hunsent hnil, ← not_isNone, hnone] at hset
    exact absurd hset (by decide)
  cases houtstanding : q.outstanding with
  | nil =>
    have hhead : s.lists.outstanding = none := by
      rw [h.linked.outstanding.chain.head_eq, houtstanding]
      rfl
    have hshown := (h.setTimers (needed || s.sendtimer) s.timeout).stopIfIdle
    rw [houtstanding, ← h.linked.ready_isNone] at hshown
    simp only [hhead]
    refine .ok { hshown with sending := hsending, unsent := hidle, waiting := ?_ }
    simp [Queues.stopIfIdle, houtstanding, htimeout]
  | cons p rest =>
    have hne : q.outstanding ≠ [] := by rw [houtstanding]; simp
    have hhead : s.lists.outstanding = some p := by
      rw [h.linked.outstanding.chain.head_eq, houtstanding]
      rfl
    rw [Queues.stopIfIdle_of_ne hne]
    simp only [hhead]
    rw [restartTimeout_eq hhops (h.setTimers _ s.timeout) (by rw [houtstanding]; simp)]
    exact .ok { h.setTimers _ true with
      sending := hsending, unsent := hidle, waiting := iff_of_true rfl hne }

theorem timeout_refines (h : Represents s q) (hhops : q.InHops) (hne : q.outstanding ≠ []) :
    Refines (probeTimeoutCallback s) q.timeout := by
  obtain ⟨p, rest, houtstanding⟩ := exists_cons_of_ne_nil hne
  obtain ⟨hhead, hlinked, -⟩ := h.linked.popOutstanding houtstanding
  obtain ⟨last, hlast⟩ := isSome_iff_exists.1 (getLast?_isSome.2 hne)
  have hend : s.lists.outstandingEnd = some last := h.linked.outstanding.last_eq.trans hlast
  have herase : q.outstanding.erase p = rest := by rw [houtstanding, erase_cons_head]
  have hp : p ∈ q.outstanding := by rw [houtstanding]; simp
  have htake := h.toShows.take (p := p) (l := s.lists.popOutstanding p) hp
  rw [herase] at htake
  obtain ⟨hshows, hnot, hroom⟩ := htake hlinked
  simp only [probeTimeoutCallback, Queues.timeout, hhead, hend, houtstanding, congrFun h.item p]
  cases hreply : processTimeout (q.item p) with
  | error fault => exact .error fault
  | ok result =>
    obtain ⟨d, move⟩ := result
    obtain ⟨s', started, hsettle, hs', -, hsendtimer, htimeout⟩ :=
      (hshows.setTimers s.sendtimer false).settle hnot hroom d move
    simp only [ok_bind, hsettle]
    refine afterTimeout_refines hs' ?_ htimeout ?_
    · intro hnil
      -- nothing was ready before, and a probe was waited for
      rw [hsendtimer, Bool.eq_false_iff]
      intro hset
      refine hne (h.unsent hset ?_).1
      by_contra hready
      exact Queues.ready_settle { q with outstanding := rest } p d move hready hnil
    · have hsub : rest ⊆ q.outstanding := by rw [houtstanding]; exact subset_cons_self ..
      exact hhops.settle (Queues.not_mem_all.1 hnot).2.2.1 hsub rfl d move

section

variable (h : Shows s q) (hunset : s.sendtimer = false)
  (hwaiting : s.timeout = true ↔ q.outstanding ≠ [])
include h hunset hwaiting

theorem scheduleSend_refines : Refines (s.startSendtimer s.lists.ready.isSome) (.ok q) := by
  have hsome : s.lists.ready.isSome = !q.ready.isEmpty := by
    rw [← not_isNone, h.linked.ready_isNone]
  rw [startSendtimer_eq fun _ => hunset, hunset, Bool.or_false, hsome]
  refine .ok { h.setTimers _ s.timeout with
    sending := ?_, unsent := ?_, waiting := hwaiting }
  · intro hne
    simpa using hne
  · intro hset hnil
    rw [hnil] at hset
    exact absurd hset Bool.false_ne_true

theorem stopOrSchedule_refines : Refines (if s.lists.outstanding.isNone ∧ s.lists.ready.isNone then .ok { s with stopped := true }
      else s.startSendtimer s.lists.ready.isSome)
      (.ok q.stopIfIdle) := by
  by_cases hidle : s.lists.outstanding.isNone = true ∧ s.lists.ready.isNone = true
  · have hstopped := h.stopIfIdle
    rw [← h.linked.outstanding_isNone, ← h.linked.ready_isNone, hidle.1, hidle.2, Bool.and_self, Bool.or_true] at hstopped
    have hready : q.ready = [] := by
      rw [← List.isEmpty_iff, ← h.linked.ready_isNone]
      exact hidle.2
    rw [if_pos hidle]
    exact .ok { hstopped with
      sending := fun hne => absurd hready hne
      unsent := fun hset => absurd (hunset.symm.trans hset) Bool.false_ne_true
      waiting := hwaiting }
  · have hgoing : (q.outstanding.isEmpty && q.ready.isEmpty) = false := by
      rw [← h.linked.outstanding_isNone, ← h.linked.ready_isNone, Bool.eq_false_iff]
      simpa using hidle
    rw [if_neg hidle, Queues.stopIfIdle, hgoing, Bool.or_false]
    exact scheduleSend_refines h hunset hwaiting

end

theorem Shows.popReady {ready : List ℕ} (h : Shows s q) (hready : q.ready = p :: ready) : s.lists.ready = some p ∧
      Shows { s with lists := s.lists.popReady p } { q with ready := ready } ∧
      p ∉ Queues.all { q with ready := ready } ∧
      (Queues.all { q with ready := ready }).length < q.count := by
  obtain ⟨hhead, hlinked, hp⟩ := h.linked.popReady hready
  have hlength : q.all.length = (Queues.all { q with ready := ready }).length + 1 :=
    (Queues.perm_popReady hready).length_eq
  have hfew := h.few
  refine ⟨hhead, { h with linked := hlinked, few := ?_ }, hp, by omega⟩
  change (Queues.all { q with ready := ready }).length ≤ q.count
  omega

theorem Shows.trackProbe (h : Shows s q) (hnext : s.lists.next p = none) (hp : p ∉ q.all) (d : Dest) :
    ∃ l, (s.setItem p d).trackProbe p = .ok { s.setItem p d with
          lists := l, timeout := s.timeout || q.outstanding.isEmpty
          totalProbes := s.totalProbes + 1 } ∧
      Linked l { q with outstanding := q.outstanding ++ [p] } := by
  obtain ⟨l, happend, hl⟩ := h.linked.appendOutstanding hnext hp
  refine ⟨l, ?_, hl⟩
  rw [ProbeList.trackProbe, show (s.setItem p d).lists = s.lists from rfl, happend, ok_bind, h.linked.outstanding_isNone]
  rfl

theorem send_refines (r : Sending) (h : Represents s q) : Refines (sendProbeCallback r s) (q.send r) := by
  cases hready : q.ready with
  | nil =>
    have hhead : s.lists.ready = none := by
      rw [h.linked.ready.chain.head_eq, hready]
      rfl
    simp only [sendProbeCallback, Queues.send, hhead, hready]
    exact .ok { h.setTimers false s.timeout with
      sending := fun hne => absurd hready hne
      unsent := fun hset => absurd hset Bool.false_ne_true
      waiting := h.waiting }
  | cons p ready =>
    obtain ⟨hhead, hpopped, hp, hroom⟩ := h.toShows.popReady hready
    have hshows := hpopped.setTimers false s.timeout
    simp only [sendProbeCallback, Queues.send, hhead, hready, congrFun h.item p]
    cases hsend : sendProbe r (q.item p) with
    | error fault => exact .error fault
    | ok result =>
      obtain ⟨d, sent⟩ := result
      simp only [ok_bind]
      cases sent with
      | true =>
        have hnext : (s.lists.popReady p).next p = none := update_self ..
        obtain ⟨l, htrack, hl⟩ := hshows.trackProbe hnext hp d
        simp only [if_true, htrack, ok_bind]
        refine scheduleSend_refines ?_ rfl ?_
        · refine
            { linked := { hl with }, item := ?_, stopped := h.stopped, ident := h.ident
              count := h.count, few := ?_ }
          · change update s.item p d = _
            rw [h.item]
          · have hperm := Queues.perm_appendOutstanding (q := { q with ready := ready }) (p := p)
            exact hperm.length_eq.le.trans hroom
        · have hset : (s.timeout || q.outstanding.isEmpty) = true := by
            cases houtstanding : q.outstanding with
            | nil => simp
            | cons p' rest => rw [h.waiting.2 (by rw [houtstanding]; simp)]; rfl
          exact iff_of_true hset (by simp)
      | false =>
        obtain ⟨s', started, hsettle, hs', -, hsendtimer, htimeout⟩ :=
          hshows.settle hp hroom d .done
        have hunset : s'.sendtimer = false := hsendtimer
        have hwaiting : s'.timeout = true ↔ q.outstanding ≠ [] := by
          rw [htimeout]
          exact h.waiting
        simp only [Bool.false_eq_true, if_false, hsettle, ok_bind]
        exact stopOrSchedule_refines hs' hunset hwaiting

theorem step_refines (e : Endian) {event : Event} (h : Represents s q) (hhops : q.InHops)
    (henabled : Enabled s event) : Refines (step e s event) (q.step e event) := by
  cases event with
  | send r => exact send_refines r h
  | recv received =>
    cases received with
    | none => exact .ok h
    | some r => exact recv_refines e r h hhops
  | timeout => exact timeout_refines h hhops (h.waiting.1 henabled)

end Callbacks

section Start

structure Creating (q : Queues) (i : ℕ) : Prop where
  all : q.all.Perm (range i)
  item : ∀ p ∈ q.all, ∃ t : Target, q.item p = t.item p
  outstanding : q.outstanding = []
  done : q.done = []
  stopped : q.stopped = false

variable {s : ProbeList} {q : Queues} {i : ℕ}

theorem Creating.not_mem (h : Creating q i) : i ∉ q.all := by
  rw [h.all.mem_iff, mem_range]
  exact lt_irrefl i

theorem Creating.append {q' : Queues} (h : Creating q i) (t : Target)
    (hitem : q'.item = update q.item i (t.item i)) (hall : q'.all.Perm (i :: q.all))
    (houtstanding : q'.outstanding = q.outstanding) (hdone : q'.done = q.done)
    (hstopped : q'.stopped = q.stopped) : Creating q' (i + 1) := by
  refine
    { all := ?_, item := ?_, outstanding := houtstanding.trans h.outstanding
      done := hdone.trans h.done, stopped := hstopped.trans h.stopped }
  · rw [range_succ]
    exact hall.trans ((h.all.cons i).trans (perm_append_singleton i _).symm)
  · intro p hp
    rw [hitem]
    rcases mem_cons.1 (hall.mem_iff.1 hp) with rfl | hold
    · exact ⟨t, update_self ..⟩
    · obtain ⟨t', ht'⟩ := h.item p hold
      refine ⟨t', ?_⟩
      rw [update_of_ne (ne_of_mem_of_not_mem hold h.not_mem), ht']

theorem createItems_shows (targets : List Target) (window : ℤ) (h : Shows s q) (hq : Creating q i)
    (hcount : i + targets.length = q.count) :
    ∃ s', createItems targets i window s = .ok s' ∧ Shows s' (Queues.create targets i window q) ∧
      Creating (Queues.create targets i window q) q.count ∧ s'.timeout = s.timeout := by
  induction targets generalizing i window s q with
  | nil =>
    obtain rfl : i = q.count := hcount
    exact ⟨s, rfl, h, hq, rfl⟩
  | cons t targets ih =>
    have hp := hq.not_mem
    have hcreated : Shows { s.setItem i (t.item i) with lists := s.lists.setNext i none }
        { q with item := update q.item i (t.item i) } :=
      { h with
        linked := { h.linked.setNext hp none with }
        item := by rw [ProbeList.setItem, h.item] }
    have hlength : i + 1 + targets.length = q.count := by
      rw [← hcount, length_cons]
      omega
    have hroom : q.all.length + 1 ≤ q.count := by
      rw [hq.all.length_eq, length_range]
      omega
    rw [createItems, Queues.create]
    by_cases hwindow : window ≠ 0
    · obtain ⟨l, happend, hl⟩ := hcreated.linked.appendReadyItem hp
      have hperm := Queues.perm_appendReady (p := i) (q := { q with item := update q.item i (t.item i) })
      simp only [if_pos hwindow, happend, ok_bind]
      exact ih (window - 1)
        { hcreated with linked := hl, few := hperm.length_eq.le.trans hroom }
        (hq.append t rfl hperm rfl rfl rfl) hlength
    · have hl := hcreated.linked.pushPending hp
      have hperm := Queues.perm_pushPending (p := i) (q := { q with item := update q.item i (t.item i) })
      simp only [if_neg hwindow]
      exact ih window
        { hcreated with linked := hl, few := hperm.length_eq.le.trans hroom }
        (hq.append t rfl hperm rfl rfl rfl) hlength

theorem runTraceroute_represents (c : Config) : Creating (Queues.initial c) c.targets.length ∧
      ∃ s, runTraceroute c = .ok s ∧ Represents s (Queues.initial c) := by
  have hempty : Shows c.empty
      { pending := [], ready := [], outstanding := [], done := [], item := fun _ => noItem
        stopped := false, ident := c.ident, count := c.targets.length } :=
    { linked :=
        { pending := rfl, ready := ⟨rfl, rfl⟩, outstanding := ⟨rfl, rfl⟩, done := rfl
          nodup := nodup_nil }
      item := rfl, stopped := rfl, ident := rfl, count := rfl, few := Nat.zero_le _ }
  obtain ⟨s, hs, hshows, hcreating, htimeout⟩ :=
    createItems_shows (i := 0) c.targets c.window hempty
      { all := .rfl, item := fun p hp => absurd hp (not_mem_nil), outstanding := rfl
        done := rfl, stopped := rfl }
      (Nat.zero_add _)
  have hinitial : Creating (Queues.initial c) c.targets.length := hcreating
  refine ⟨hinitial, { s with sendtimer := true }, ?_, ?_⟩
  · rw [runTraceroute, hs, ok_bind]
  · refine { hshows.setTimers true s.timeout with
      sending := fun _ => rfl, unsent := fun _ hready => ⟨hinitial.outstanding, ?_⟩, waiting := ?_ }
    · have hlength := hinitial.all.length_eq
      rw [Queues.all, hready, hinitial.outstanding, hinitial.done] at hlength
      rw [Queues.count_initial]
      simpa using hlength
    · refine iff_of_false ?_ (not_not.2 hinitial.outstanding)
      change s.timeout ≠ true
      rw [htimeout]
      exact Bool.false_ne_true

end Start

end Amplet.TracerouteRefinement
