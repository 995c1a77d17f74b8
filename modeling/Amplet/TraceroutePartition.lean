import Amplet.TracerouteRuns

/-!
# The lists partition the destinations

A reply that comes after the loss timeout takes its destination out of the
outstanding list and puts it into no other. A window of nothing leaves every
destination pending, and the first packet stops the test.
-/

namespace Amplet.TraceroutePartition
open List LinkedList SocketAddress TracerouteProbe TracerouteLists TracerouteQueues TracerouteRefinement
open TracerouteReplies TracerouteRuns

/-- In exactly one list, and the test has only stopped when that is the list of those that are
done. -/
def Partitioned (c : Config) : Except Fault ProbeList → Prop
  | .error _ => False
  | .ok s => ∃ pending ready outstanding done,
      Chain s.lists.next s.lists.pending pending ∧ Chain s.lists.next s.lists.ready ready ∧
      Chain s.lists.next s.lists.outstanding outstanding ∧ Chain s.lists.next s.lists.done done ∧
      (pending ++ ready ++ outstanding ++ done).Perm (range c.targets.length) ∧
      (s.stopped = true → done.Perm (range c.targets.length))

/-- The reply, if the callback is for one, is in time and from a hop, and there is
a window to probe destinations in when a packet arrives. -/
def Keeps (e : Endian) (c : Config) (s : ProbeList) (event : Event) : Prop :=
  (∀ p a now, ProbeList.replyTo e s event = some (p, a, now) → ¬BelowFirst a (s.item p) ∧ ¬Late e a now (s.item p)) ∧
  (c.window = 0 → c.targets ≠ [] → ∀ r, event ≠ .recv (some r))

section

variable {e : Endian} {c : Config} {s : ProbeList} {q q' : Queues} {lost : List ℕ} {event : Event}
  {steps : List (ProbeList × Event)}

def Untouched (c : Config) (q : Queues) : Prop :=
  c.window = 0 → q.ready = [] ∧ q.outstanding = [] ∧ q.done = []

structure Busy (c : Config) (q : Queues) : Prop where
  waiting : c.window ≠ 0 → q.pending ≠ [] → q.ready ≠ [] ∨ q.outstanding ≠ []
  stopped : q.stopped = true → q.pending = [] ∧ q.ready = [] ∧ q.outstanding = []

theorem untouched_create (targets : List Target) (i : ℕ) (q : Queues) (h : q.ready = []) :
    (Queues.create targets i 0 q).ready = [] := by
  induction targets generalizing i q with
  | nil => exact h
  | cons t targets ih =>
    rw [Queues.create, if_neg (not_not.2 rfl)]
    exact ih _ _ h

theorem untouched_initial : Untouched c (Queues.initial c) := by
  intro hwindow
  obtain ⟨hcreating, -⟩ := runTraceroute_represents c
  refine ⟨?_, hcreating.outstanding, hcreating.done⟩
  rw [Queues.initial, hwindow]
  exact untouched_create _ _ _ rfl

theorem Untouched.step (h : Untouched c q) (heffect : Effect e q event q') : Untouched c q' := by
  intro hwindow
  obtain ⟨hready, houtstanding, hdone⟩ := h hwindow
  cases heffect with
  | nothing | ignored => exact ⟨hready, houtstanding, hdone⟩
  | sent hsome | refused hsome => exact absurd (hready.symm.trans hsome) (by simp)
  | replied hreply hp hhop hreplied => exact absurd hp (by simp [houtstanding])
  | expired hsome hexpired => exact absurd (houtstanding.symm.trans hsome) (by simp)

theorem busy_initial : Busy c (Queues.initial c) := by
  obtain ⟨hcreating, -⟩ := runTraceroute_represents c
  refine ⟨?_, ?_⟩
  · intro hwindow hpending
    refine .inl (Queues.ready_create _ _ _ _ (.inr ⟨hwindow, ?_⟩))
    intro hnone
    have hlength := hcreating.all.length_eq
    rw [hnone, Queues.all] at hlength
    simp only [length_append, length_nil, range_zero] at hlength
    exact hpending (eq_nil_of_length_eq_zero (by omega))
  · intro hstopped
    exact absurd (hcreating.stopped.symm.trans hstopped) (by decide)

theorem Busy.settle {p : ℕ} {d : Dest} {m : Move} (hm : m ≠ .lost) (hlive : q.stopped = false) :
    Busy c (q.settle p d m).stopIfIdle := by
  have hwaiting : (q.settle p d m).pending ≠ [] → (q.settle p d m).ready ≠ [] := by
    cases m with
    | ready =>
      intro _
      exact append_ne_nil_of_right_ne_nil _ (cons_ne_nil _ _)
    | done =>
      intro hpending
      cases hold : q.pending with
      | nil => exact absurd (by simp [Queues.settle, hold]) hpending
      | cons first rest => simp [Queues.settle, hold]
    | lost => exact absurd rfl hm
  refine ⟨fun _ hpending => .inl (hwaiting hpending), ?_⟩
  intro hstopped
  simp only [Queues.stopIfIdle, Queues.stopped_settle, hlive, Bool.false_or, Bool.and_eq_true, List.isEmpty_iff] at hstopped ⊢
  refine ⟨?_, hstopped.2, hstopped.1⟩
  by_contra hpending
  exact hwaiting hpending hstopped.2

theorem Busy.step (h : Busy c q) (htracks : Tracks c q lost) (hlive : q.stopped = false)
    (heffect : Effect e q event q') (hlate : ¬LateReply e q event)
    (hwindow : c.window = 0 → c.targets ≠ [] → ∀ r, event ≠ .recv (some r)) : Busy c q' := by
  cases heffect with
  | nothing hreply hsilent hidle => exact h
  | @ignored r hreply =>
    refine ⟨h.waiting, fun hstopped => ?_⟩
    simp only [Queues.stopIfIdle, hlive, Bool.false_or, Bool.and_eq_true, List.isEmpty_iff] at hstopped ⊢
    refine ⟨?_, hstopped.2, hstopped.1⟩
    by_cases hzero : c.window = 0
    · have hnone : c.targets = [] := by
        by_contra hsome
        exact hwindow hzero hsome r rfl
      have hlength := htracks.all.length_eq
      rw [hnone, Queues.all] at hlength
      simp only [length_append, length_nil, range_zero] at hlength
      exact eq_nil_of_length_eq_zero (by omega)
    · by_contra hpending
      rcases h.waiting hzero hpending with hready | houtstanding
      · exact hready hstopped.2
      · exact houtstanding hstopped.1
  | sent hready hprobed =>
    refine ⟨fun _ _ => .inr (by simp), fun hstopped => ?_⟩
    exact absurd (hlive.symm.trans hstopped) (by decide)
  | refused hready hprobed => exact Busy.settle (by decide) hlive
  | replied hreply hp hhop hreplied =>
    exact Busy.settle (fun hm => hlate ⟨_, _, _, hreply, hreplied.lost.1 hm⟩) hlive
  | expired houtstanding hexpired => exact Busy.settle hexpired.kept hlive

theorem not_lateReply_of_keeps (hs : Represents s q) (h : Keeps e c s event) : ¬LateReply e q event := by
  rintro ⟨p, a, now, hreply, hlate⟩
  refine (h.1 p a now ((replyTo_eq hs event).trans hreply)).2 ?_
  rw [hs.item]
  exact hlate

theorem run_busy (run : Run e c steps (.ok s)) : ∃ q lost, Represents s q ∧ Tracks c q lost ∧ Untouched c q ∧
      ((∀ x ∈ steps, Keeps e c x.1 x.2) → lost = [] ∧ Busy c q) := by
  refine run_induction (P := fun steps q lost => Untouched c q ∧
    ((∀ x ∈ steps, Keeps e c x.1 x.2) → lost = [] ∧ Busy c q)) ?_ ?_ run rfl
  · exact ⟨untouched_initial, fun _ => ⟨rfl, busy_initial⟩⟩
  · intro steps s q lost event q' lost' hs htracks hlive hp heffect hkept
    refine ⟨hp.1.step heffect, fun hall => ?_⟩
    have hkeeps : Keeps e c s event := hall _ (mem_cons_self ..)
    have hlate := not_lateReply_of_keeps hs hkeeps
    obtain ⟨hnone, hbusy⟩ := hp.2 fun x hx => hall x (mem_cons_of_mem _ hx)
    exact ⟨(hkept hlate).trans hnone, hbusy.step htracks hlive heffect hlate hkeeps.2⟩

theorem partitioned_of_busy (hs : Represents s q) (htracks : Tracks c q []) (hbusy : Busy c q) : Partitioned c (.ok s) := by
  have hall : q.all.Perm (range c.targets.length) := htracks.lost_eq_nil_iff.1 rfl
  refine ⟨q.pending, q.ready, q.outstanding, q.done, hs.linked.pending, hs.linked.ready.chain,
    hs.linked.outstanding.chain, hs.linked.done, hall, fun hstopped => ?_⟩
  obtain ⟨hpending, hready, houtstanding⟩ := hbusy.stopped (hs.stopped.symm.trans hstopped)
  rw [Queues.all, hpending, hready, houtstanding] at hall
  exact hall

theorem all_of_partitioned (hs : Represents s q) (h : Partitioned c (.ok s)) : q.all.Perm (range c.targets.length) ∧
      (q.stopped = true → q.done.Perm (range c.targets.length)) := by
  obtain ⟨pending, ready, outstanding, done, hpending, hready, houtstanding, hdone, hall, hstop⟩ := h
  rw [hpending.unique hs.linked.pending, hready.unique hs.linked.ready.chain,
    houtstanding.unique hs.linked.outstanding.chain, hdone.unique hs.linked.done] at hall
  refine ⟨hall, fun hstopped => ?_⟩
  rw [← hdone.unique hs.linked.done]
  exact hstop (hs.stopped.trans hstopped)

theorem keeps_of_partitioned (hs : Represents s q) (htracks : Tracks c q lost)
    (huntouched : Untouched c q) (henabled : Enabled s event)
    (h : Partitioned c (step e s event)) : Keeps e c s event := by
  rcases step_outcome (e := e) hs htracks henabled with
    ⟨s', q', hs', hrepresents, heffect⟩ | ⟨p, a, now, -, -, hfault⟩
  · rw [hs'] at h
    obtain ⟨hall, hstop⟩ := all_of_partitioned hrepresents h
    obtain ⟨lost', htracks', hlost, -⟩ := htracks.step heffect
    have hnone : lost' = [] := htracks'.lost_eq_nil_iff.2 hall
    refine ⟨fun p a now hreply => ⟨fun hbelow => ?_, fun hlate => ?_⟩, ?_⟩
    · rw [replyTo_eq hs] at hreply
      rw [hs.item] at hbelow
      exact heffect.not_belowFirst hreply hbelow
    · rw [replyTo_eq hs] at hreply
      rw [hs.item] at hlate
      exact hlost ⟨p, a, now, hreply, hlate⟩ hnone
    · rintro hzero hsome r rfl
      obtain ⟨hready, houtstanding, hdone⟩ := huntouched hzero
      cases heffect with
      | nothing hreply hsilent hidle => exact hsilent r rfl
      | ignored hreply =>
        have hstopped : q.stopIfIdle.stopped = true := by
          simp only [Queues.stopIfIdle, hready, houtstanding, isEmpty_nil, Bool.and_self, Bool.or_true]
        have hlength := (hstop hstopped).length_eq
        rw [length_range, show q.stopIfIdle.done = [] from hdone] at hlength
        exact hsome (eq_nil_of_length_eq_zero hlength.symm)
      | replied hreply hp hhop hreplied =>
        rw [houtstanding] at hp
        exact not_mem_nil hp
  · rw [hfault] at h
    exact h.elim

end

theorem partition_iff {e : Endian} {c : Config} {steps : List (ProbeList × Event)}
    {o : Except Fault ProbeList} (run : Run e c steps o) :
    ((∀ x ∈ steps, Partitioned c (.ok x.1)) ∧ Partitioned c o) ↔ ∀ x ∈ steps, Keeps e c x.1 x.2 := by
  refine run_always_iff ?_ ?_ (fun hreply hkeeps => (hkeeps.1 _ _ _ hreply).1) run
  · intro steps s run hall
    obtain ⟨q, lost, hs, htracks, -, hbusy⟩ := run_busy run
    obtain ⟨rfl, hstill⟩ := hbusy hall
    exact partitioned_of_busy hs htracks hstill
  · intro steps s event run enabled hafter
    obtain ⟨q, lost, hs, htracks, huntouched, -⟩ := run_busy run
    exact keeps_of_partitioned hs htracks huntouched enabled hafter

def answeredInTime : List Event :=
  [.recv (some ⟨.inet 0x0200000a, errorPacket 11 0 0x0c00 9000 1, 2600000⟩),
    .send ⟨true, true, 2500000⟩, .timeout, .send ⟨true, true, 0⟩]

theorem partition_iff_answeredInTime : allowed .little oneTarget answeredInTime = true ∧
      (((∀ x ∈ trace .little oneTarget answeredInTime, Partitioned oneTarget (.ok x.1)) ∧
          Partitioned oneTarget (exec .little oneTarget answeredInTime)) ↔
        ∀ x ∈ trace .little oneTarget answeredInTime, Keeps .little oneTarget x.1 x.2) := by
  have hallowed : allowed .little oneTarget answeredInTime = true := by decide +kernel
  exact ⟨hallowed, partition_iff (exec_run .little oneTarget hallowed)⟩

def answeredLate : List Event :=
  [.recv (some ⟨.inet 0x0200000a, errorPacket 11 0 0x0c00 9000 1, 2500000⟩), .send ⟨true, true, 0⟩]

theorem late_reply_loses_destination : Run .little oneTarget (trace .little oneTarget answeredLate)
        (exec .little oneTarget answeredLate) ∧
      ¬Partitioned oneTarget (exec .little oneTarget answeredLate) := by
  have hallowed : allowed .little oneTarget answeredLate = true := by decide +kernel
  have hlists : (exec .little oneTarget answeredLate).toOption.map (fun s =>
      [s.lists.pending, s.lists.ready, s.lists.outstanding, s.lists.done]) = some [none, none, none, none] := by decide +kernel
  refine ⟨exec_run .little oneTarget hallowed, fun h => ?_⟩
  cases hexec : exec .little oneTarget answeredLate with
  | error fault =>
    rw [hexec] at h
    exact h
  | ok s =>
    rw [hexec] at h hlists
    obtain ⟨pending, ready, outstanding, done, hpending, hready, houtstanding, hdone, hall, -⟩ := h
    simp only [Except.toOption, Option.map_some, Option.some.injEq, cons.injEq, and_true] at hlists
    obtain ⟨hp, hr, ho, hd⟩ := hlists
    rw [hpending.eq_nil_iff.1 hp, hready.eq_nil_iff.1 hr, houtstanding.eq_nil_iff.1 ho, hdone.eq_nil_iff.1 hd] at hall
    exact absurd hall.length_eq (by decide)

end Amplet.TraceroutePartition
