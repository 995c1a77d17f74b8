import Amplet.TracerouteRuns

/-!
# The hops and the length of a path stay in their bounds

Two replies break them. A terminal error for the first probe that quotes a TTL one above
the one that was sent is taken to be from hop zero. An error that probing recovers from,
as the last attempt at the first hop, leaves a TTL of zero, one below which is stored as
the length of the path.
-/

namespace Amplet.TracerouteBounds
open List Function LinkedList SocketAddress TracerouteProbe TracerouteLists TracerouteQueues TracerouteRefinement
open TracerouteSound TracerouteReplies TracerouteRuns

/-- No access was outside the array of hops, and no path is longer than the hops. -/
def Bounded (c : Config) : Except Fault ProbeList → Prop
  | .error fault => ∀ index, fault ≠ .hop index
  | .ok s =>
    (∃ ready outstanding, Chain s.lists.next s.lists.ready ready ∧ Chain s.lists.next s.lists.outstanding outstanding ∧
      ∀ p ∈ ready ++ outstanding, 1 ≤ (s.item p).ttl ∧ (s.item p).ttl ≤ maxHopsInPath) ∧
    ∀ p < c.targets.length, (s.item p).pathLength ≤ maxHopsInPath

/-- The reply, if the callback is for one, is from a hop and not the last attempt
at the first one. -/
def InBounds (e : Endian) (s : ProbeList) (event : Event) : Prop :=
  ∀ p a now, ProbeList.replyTo e s event = some (p, a, now) → ¬BelowFirst a (s.item p) ∧ ¬PastFirst e a (s.item p)

section

variable {e : Endian} {c : Config} {s : ProbeList} {q q' : Queues} {lost : List ℕ} {event : Event}
  {steps : List (ProbeList × Event)}

theorem pathLength_settle (q : Queues) (p : ℕ) (d : Dest) (m : Move) : ((q.settle p d m).item p).pathLength = d.pathLength := by
  cases m <;> simp only [Queues.settle, update_self]

theorem inPath_settle {p : ℕ} {d : Dest} {m : Move} (hd : InPath d) (h : ∀ p' < c.targets.length, InPath (q.item p')) :
    ∀ p' < c.targets.length, InPath ((q.settle p d m).item p') := by
  intro p' hp'
  by_cases hsame : p' = p
  · rw [hsame, InPath, pathLength_settle]
    exact hd
  · rw [Queues.item_settle_of_ne q d m hsame]
    exact h p' hp'

theorem Tracks.lt {p : ℕ} (h : Tracks c q lost) (hp : p ∈ q.all) : p < c.targets.length :=
  mem_range.1 (h.all.mem_iff.1 (mem_append_left _ hp))

theorem inPath_effect (htracks : Tracks c q lost) (heffect : Effect e q event q')
    (hbounds : ∀ p a now, Queues.replyTo e q event = some (p, a, now) → ¬PastFirst e a (q.item p))
    (h : ∀ p < c.targets.length, InPath (q.item p)) :
    ∀ p < c.targets.length, InPath (q'.item p) := by
  have hready : ∀ {p ready}, q.ready = p :: ready → p < c.targets.length := by
    intro p ready hready
    refine Tracks.lt htracks ?_
    simp [Queues.all, hready]
  have houtstanding : ∀ {p}, p ∈ q.outstanding → p < c.targets.length := by
    intro p hp
    refine Tracks.lt htracks ?_
    simp [Queues.all, hp]
  cases heffect with
  | nothing hreply hsilent hidle => exact h
  | ignored hreply => exact h
  | @sent r p ready d hsome hprobed =>
    intro p' hp'
    change InPath (update q.item p d p')
    by_cases hsame : p' = p
    · rw [hsame, update_self]
      exact hprobed.path (h p (hready hsome))
    · rw [update_of_ne hsame]
      exact h p' hp'
  | @refused r p ready d hsome hprobed =>
    exact inPath_settle (q := { q with ready := ready }) (p := p) (m := .done) (hprobed.path (h p (hready hsome))) h
  | @replied r p a d m hreply hp hhop hreplied =>
    exact inPath_settle (q := { q with outstanding := q.outstanding.erase p })
      (hreplied.path (hbounds p a r.now hreply) (h p (houtstanding hp))) h
  | @expired p rest d m hsome hexpired =>
    exact inPath_settle (q := { q with outstanding := rest })
      (hexpired.path (h p (houtstanding (by rw [hsome]; exact mem_cons_self ..)))) h

theorem inPath_initial : ∀ p < c.targets.length, InPath ((Queues.initial c).item p) := by
  intro p hp
  obtain ⟨hcreating, -⟩ := runTraceroute_represents c
  obtain ⟨t, ht⟩ := hcreating.item p (hcreating.all.mem_iff.2 (mem_range.2 hp))
  rw [ht]
  exact show (0 : ℤ) ≤ 0 ∧ (0 : ℤ) ≤ 30 by decide

theorem run_inPath (run : Run e c steps (.ok s)) : ∃ q lost, Represents s q ∧ Tracks c q lost ∧
      ((∀ x ∈ steps, InBounds e x.1 x.2) → ∀ p < c.targets.length, InPath (q.item p)) := by
  refine run_induction (P := fun steps q _ => (∀ x ∈ steps, InBounds e x.1 x.2) →
    ∀ p < c.targets.length, InPath (q.item p)) ?_ ?_ run rfl
  · exact fun _ => inPath_initial
  · intro steps s q lost event q' lost' hs htracks hlive hp heffect hkept hall
    refine inPath_effect htracks heffect ?_ (hp fun x hx => hall x (mem_cons_of_mem _ hx))
    intro p a now hreply hpast
    refine (hall _ (mem_cons_self ..) p a now ((replyTo_eq hs event).trans hreply)).2 ?_
    rw [hs.item]
    exact hpast

theorem bounded_of_inPath (hs : Represents s q) (htracks : Tracks c q lost)
    (h : ∀ p < c.targets.length, InPath (q.item p)) : Bounded c (.ok s) := by
  refine ⟨⟨q.ready, q.outstanding, hs.linked.ready.chain, hs.linked.outstanding.chain, ?_⟩, ?_⟩
  · intro p hp
    rw [hs.item]
    exact (htracks.sound p (mem_append.1 hp)).ttl
  · intro p hp
    rw [hs.item]
    exact (h p hp).2

theorem inBounds_of_bounded (hs : Represents s q) (htracks : Tracks c q lost)
    (henabled : Enabled s event) (h : Bounded c (step e s event)) : InBounds e s event := by
  rcases step_outcome (e := e) hs htracks henabled with
    ⟨s', q', hs', hrepresents, heffect⟩ | ⟨p, a, now, -, -, hfault⟩
  · rw [hs'] at h
    intro p a now hreply
    rw [replyTo_eq hs] at hreply
    rw [hs.item]
    refine ⟨heffect.not_belowFirst hreply, fun hpast => ?_⟩
    cases heffect with
    | nothing hnone hsilent hidle => cases hnone.symm.trans hreply
    | ignored hnone => cases hnone.symm.trans hreply
    | sent hready hprobed => cases hreply
    | refused hready hprobed => cases hreply
    | expired houtstanding hexpired => cases hreply
    | @replied r p' a' d m hsome hp hhop hreplied =>
      obtain ⟨rfl, rfl, rfl⟩ : _ ∧ _ ∧ _ := by simpa using hsome.symm.trans hreply
      have hlt : p' < c.targets.length := by
        refine Tracks.lt htracks ?_
        simp [Queues.all, hp]
      have hmost := h.2 p' hlt
      have hlength : (s'.item p').pathLength = 255 := by
        rw [hrepresents.item]
        exact (pathLength_settle ..).trans (hreplied.wrapped hpast)
      rw [hlength] at hmost
      exact absurd hmost (by decide)
  · rw [hfault] at h
    exact absurd rfl (h (-1))

end

theorem bounds_iff {e : Endian} {c : Config} {steps : List (ProbeList × Event)}
    {o : Except Fault ProbeList} (run : Run e c steps o) :
    ((∀ x ∈ steps, Bounded c (.ok x.1)) ∧ Bounded c o) ↔ ∀ x ∈ steps, InBounds e x.1 x.2 := by
  refine run_always_iff ?_ ?_ (fun hreply hbounds => (hbounds _ _ _ hreply).1) run
  · intro steps s run hall
    obtain ⟨q, lost, hs, htracks, hinPath⟩ := run_inPath run
    exact bounded_of_inPath hs htracks (hinPath hall)
  · intro steps s event run enabled hafter
    obtain ⟨q, lost, hs, htracks, -⟩ := run_inPath run
    exact inBounds_of_bounded hs htracks enabled hafter

def reached : List Event :=
  [.recv (some ⟨.inet 0x0100007f, errorPacket 3 3 0x1000 9000 1, 400000⟩), .send ⟨true, true, 300000⟩,
    .recv (some ⟨.inet 0x0200000a, errorPacket 11 0 0x0c00 9000 1, 200000⟩),
    .send ⟨true, true, 0⟩]

theorem bounds_iff_reached : allowed .little oneTarget reached = true ∧
      (((∀ x ∈ trace .little oneTarget reached, Bounded oneTarget (.ok x.1)) ∧
          Bounded oneTarget (exec .little oneTarget reached)) ↔
        ∀ x ∈ trace .little oneTarget reached, InBounds .little x.1 x.2) := by
  have hallowed : allowed .little oneTarget reached = true := by decide +kernel
  exact ⟨hallowed, bounds_iff (exec_run .little oneTarget hallowed)⟩

def forgedTtl : List Event :=
  [.recv (some ⟨.inet 0x0100007f, errorPacket 3 3 0x0c00 9000 4, 200000⟩), .send ⟨true, true, 0⟩]

theorem forged_ttl_leaves_hops : Run .little oneTarget (trace .little oneTarget forgedTtl) (exec .little oneTarget forgedTtl) ∧
      exec .little oneTarget forgedTtl = .error (.hop (-1)) ∧
      ¬Bounded oneTarget (exec .little oneTarget forgedTtl) := by
  have hallowed : allowed .little oneTarget forgedTtl = true := by decide +kernel
  have hfault : exec .little oneTarget forgedTtl = .error (.hop (-1)) := by
    rfl
  refine ⟨exec_run .little oneTarget hallowed, hfault, ?_⟩
  rw [hfault]
  exact fun h => h (-1) rfl

end Amplet.TracerouteBounds
