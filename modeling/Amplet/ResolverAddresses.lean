import Amplet.ResolverThreads

/-!
# Addresses of names resolved by several threads

What the threads write to the address list in a run: the account of a name follows its
queries from `amp_resolve_add` to the callback that releases the data block. Whether the
list still holds it at the end is a matter of the accesses, see `trace_addrlist`.
-/

namespace Amplet.ResolverThreads
open Bytes TargetLists
open List hiding Vector
open AddressLimit (RecordType Block Entry takeRecords underLock dummyEntries)
open SharedList (Access written)

def kept (max : ℤ) (entries : List Entry) : List Entry :=
  (if 0 < max then entries.take max.toNat else entries).reverse

def remaining (max : ℤ) (n : ℕ) : ℤ := if 0 < max then ((max.toNat - n : ℕ) : ℤ) else -1

def expected (owner : ℕ) (r : Request) (answers : Answers) : List Entry :=
  if anyData answers then kept r.max (returned owner r.name answers)
  else ((queried r.family).map (dummyEntry owner r.name)).reverse

theorem length_kept (max : ℤ) (entries : List Entry) :
    (kept max entries).length = if 0 < max then min max.toNat entries.length else entries.length := by
  rw [kept, length_reverse]
  split_ifs
  · exact length_take
  · rfl

theorem kept_append (max : ℤ) (first second : List Entry) : kept max (first ++ second) =
      (if 0 < max then second.take (max.toNat - first.length) else second).reverse ++
        kept max first := by
  simp only [kept]
  split_ifs
  · rw [take_append, reverse_append]
  · exact reverse_append

theorem returned_append (owner : ℕ) (name : CStr) (answers : Answers) (type : RecordType) (data : Option (List (List UInt8))) :
    returned owner name (answers ++ [(type, data)]) =
      returned owner name answers ++ (data.getD []).map (recordEntry owner name type) := by
  simp [returned]

theorem underLock_eq (owner : ℕ) (type : RecordType) (data : Option (List (List UInt8))) (b : Block) {max : ℤ} {answers : Answers}
    (hmax : b.max = remaining max (returned owner b.name answers).length) :
    (underLock owner type data b []).1 =
        { b with
          max := remaining max (returned owner b.name (answers ++ [(type, data)])).length
          ok := b.ok || data.isSome
          qcount := b.qcount - 1 } ∧
      (underLock owner type data b []).2 ++ kept max (returned owner b.name answers) =
        kept max (returned owner b.name (answers ++ [(type, data)])) := by
  rw [returned_append, kept_append, length_append, length_map]
  cases data with
  | none =>
    simp only [underLock, Option.getD_none, map_nil, take_nil, ite_self, reverse_nil,
      length_nil, Nat.add_zero, Option.isSome_none, Bool.or_false, ← hmax, and_self]
  | some data =>
    simp only [underLock, Option.getD_some, Option.isSome_some, Bool.or_true]
    rw [hmax]
    simp only [remaining]
    split_ifs with hlimit
    · rw [AddressLimit.takeRecords_limited]
      simp only [append_nil, Nat.sub_sub, map_take, true_and]
      rfl
    · rw [AddressLimit.takeRecords_unlimited]
      simp only [append_nil, true_and]
      rfl

theorem family_of_queried {family : ℤ} (h : queried family ≠ []) : family = 0 ∨ family = 2 ∨ family = 10 := by
  by_contra hnone
  push Not at hnone
  obtain ⟨h0, h2, h10⟩ := hnone
  exact h (by simp [queried, h0, h2, h10])

variable {r : Request} {job' : Job} {items : List Entry} {events : List Event} {entry : Entry}

theorem dummyEntries_eq {owner : ℕ} {b : Block} (hname : b.name = r.name)
    (hfamily : b.family = UInt8.ofInt r.family) (hqueried : queried r.family ≠ []) :
    dummyEntries owner b = ((queried r.family).map (dummyEntry owner r.name)).reverse := by
  rw [dummyEntries, hname, hfamily]
  rcases family_of_queried hqueried with h | h | h <;> rw [h] <;> rfl

def Phase.pending : Phase → Bool
  | .unasked => true
  | .asked => true
  | _ => false

def Phase.Idle : Phase → Prop
  | .finished => True
  | .unlocked qcount => 0 < qcount
  | _ => False

def Closing (owner : ℕ) (r : Request) (answers : Answers) (entries : List Entry) : Phase → Prop
  | .unlocked qcount => qcount ≤ 0 ∧ entries = kept r.max (returned owner r.name answers)
  | .creating items => anyData answers = false ∧ items.reverse ++ entries = expected owner r answers
  | .linking item _ items =>
    anyData answers = false ∧ items.reverse ++ item :: entries = expected owner r answers
  | _ => False

/-- Some queries are not answered, the last callback is at work, or the block is released. -/
inductive Stage (owner : ℕ) (r : Request) (answers : Answers) (entries : List Entry) (job : Job) :
    Prop
  | waiting : job.released = 0 →
      (∀ type ∈ queried r.family, (job.phase type).pending = true ∨ (job.phase type).Idle) →
      (queried r.family ≠ [] → ∃ type ∈ queried r.family, (job.phase type).pending = true) →
      entries = kept r.max (returned owner r.name answers) → Stage owner r answers entries job
  | closing (type : RecordType) : job.released = 0 → type ∈ queried r.family →
      (∀ other ∈ queried r.family, other ≠ type → (job.phase other).Idle) →
      Closing owner r answers entries (job.phase type) → Stage owner r answers entries job
  | closed : job.released = 1 → (∀ type ∈ queried r.family, (job.phase type).Idle) →
      entries = expected owner r answers → Stage owner r answers entries job

structure Follows (owner : ℕ) (r : Request) (types : List RecordType) (answers : Answers)
    (entries : List Entry) (job : Job) : Prop where
  name : job.block.name = r.name
  family : job.block.family = UInt8.ofInt r.family
  max : job.block.max = remaining r.max (returned owner r.name answers).length
  ok : job.block.ok = anyData answers
  qcount : queried r.family ≠ [] → job.block.qcount = (queried r.family).countP fun type => (job.phase type).pending
  unsent : types.Sublist (queried r.family)
  unasked : ∀ type, job.phase type = .unasked ↔ type ∉ queried r.family ∨ type ∈ types
  stage : Stage owner r answers entries job

theorem nodup_queried (family : ℤ) : (queried family).Nodup := by
  unfold queried
  split_ifs <;> decide

theorem Follows.new (owner : ℕ) (r : Request) :
    Follows owner r (queried r.family) [] [] ⟨ampResolveData r, fun _ => .unasked, 0⟩ where
  name := rfl
  family := rfl
  max := by
    simp only [ampResolveData, remaining, returned, flatMap_nil, length_nil]
    split_ifs with hlimit
    · omega
    · rfl
  ok := rfl
  qcount hqueried := by
    rcases family_of_queried hqueried with h | h | h <;> rw [ampResolveData, h] <;> rfl
  unsent := Sublist.refl _
  unasked type := by
    simp only [true_iff]
    exact (Classical.em _).symm
  stage := by
    refine .waiting rfl (fun _ _ => Or.inl rfl) (fun hqueried => ?_) ?_
    · obtain ⟨type, htype⟩ := exists_mem_of_ne_nil _ hqueried
      exact ⟨type, htype, rfl⟩
    · simp [kept, returned]

variable {addrlist : List Entry} {accesses : List (Access Thread Entry)}

section Name

variable {owner : ℕ} {r : Request} {types : List RecordType} {answers : Answers}
  {entries : List Entry} {job : Job} {type : RecordType} {entries' : List Entry}

variable {phase : Phase}

theorem Phase.pending_of_idle (h : phase.Idle) : phase.pending = false := by
  cases phase <;> first | rfl | cases h

theorem Closing.pending (h : Closing owner r answers entries phase) : phase.pending = false := by
  cases phase <;> first | rfl | cases h

theorem Closing.not_idle (h : Closing owner r answers entries phase) : ¬ phase.Idle := by
  cases phase with
  | unlocked qcount => exact fun hidle => absurd h.1 (not_le.mpr hidle)
  | _ => first | exact id | cases h

section

variable (h : Stage owner r answers entries job) (htype : type ∈ queried r.family)
include h htype

theorem Stage.of_pending (hpending : (job.phase type).pending = true) : job.released = 0 ∧
      (∀ type ∈ queried r.family, (job.phase type).pending = true ∨ (job.phase type).Idle) ∧
      entries = kept r.max (returned owner r.name answers) := by
  cases h with
  | waiting hreleased hphases _ hentries => exact ⟨hreleased, hphases, hentries⟩
  | closing last _ _ hothers hclosing =>
    have hdone : (job.phase type).pending = false := by
      by_cases hlast : type = last
      · rw [hlast]
        exact hclosing.pending
      · exact Phase.pending_of_idle (hothers type htype hlast)
    simp [hpending] at hdone
  | closed _ hidle _ =>
    have hdone := Phase.pending_of_idle (hidle type htype)
    simp [hpending] at hdone

theorem Stage.of_not_idle (hpending : (job.phase type).pending = false) (hidle : ¬ (job.phase type).Idle) :
    job.released = 0 ∧ (∀ other ∈ queried r.family, other ≠ type → (job.phase other).Idle) ∧
      Closing owner r answers entries (job.phase type) := by
  cases h with
  | waiting _ hphases _ _ =>
    rcases hphases type htype with h | h
    · simp [hpending] at h
    · exact absurd h hidle
  | closing last hreleased _ hothers hclosing =>
    obtain rfl : last = type := by
      by_contra hne
      exact hidle (hothers type htype (Ne.symm hne))
    exact ⟨hreleased, hothers, hclosing⟩
  | closed _ hall _ => exact absurd (hall type htype) hidle

end

theorem Follows.queried_of_phase (h : Follows owner r types answers entries job)
    (hphase : job.phase type ≠ .unasked) : type ∈ queried r.family := by
  by_contra hnone
  exact hphase ((h.unasked type).mpr (Or.inl hnone))

theorem Follows.ask (h : Follows owner r (type :: types) answers entries job) :
    Follows owner r types answers entries (job.enter type .asked) := by
  have hunasked : job.phase type = .unasked := (h.unasked type).mpr (Or.inr mem_cons_self)
  have htype : type ∈ queried r.family := h.unsent.subset mem_cons_self
  have hnew : type ∉ types := (nodup_cons.mp (h.unsent.nodup (nodup_queried _))).1
  have hpending (other : RecordType) : ((job.enter type .asked).phase other).pending = (job.phase other).pending := by
    by_cases hother : other = type
    · rw [hother, hunasked, Job.enter_phase_self]
      rfl
    · rw [Job.enter_phase_of_ne hother]
  obtain ⟨hreleased, hphases, hentries⟩ := h.stage.of_pending htype (by rw [hunasked]; rfl)
  refine ⟨h.name, h.family, h.max, h.ok, fun hq => ?_, (sublist_cons_self _ _).trans h.unsent,
    fun other => ?_, .waiting hreleased (fun other hmem => ?_) (fun _ => ⟨type, htype, ?_⟩) hentries⟩
  · simp only [hpending]
    exact h.qcount hq
  · by_cases hother : other = type
    · subst hother
      simp [hnew, htype]
    · rw [Job.enter_phase_of_ne hother, h.unasked, mem_cons]
      simp [hother]
  · by_cases hother : other = type
    · subst hother
      rw [hpending, hunasked]
      exact Or.inl rfl
    · rw [Job.enter_phase_of_ne hother]
      exact hphases other hmem
  · rw [hpending, hunasked]
    rfl

theorem countP_pending_answered {phases phases' : RecordType → Phase} {N : List RecordType}
    (hN : N.Nodup) (htype : type ∈ N) (hbefore : (phases type).pending = true)
    (hafter : (phases' type).pending = false)
    (hothers : ∀ other, other ≠ type → phases' other = phases other) :
    (N.countP fun other => (phases other).pending) = (N.countP fun other => (phases' other).pending) + 1 := by
  induction N with
  | nil => cases htype
  | cons other N ih =>
    obtain ⟨hnew, hN⟩ := nodup_cons.mp hN
    rw [countP_cons, countP_cons]
    by_cases hother : other = type
    · subst hother
      have hsame : (N.countP fun other => (phases other).pending) = N.countP fun other => (phases' other).pending := by
        refine countP_congr fun t ht => ?_
        rw [hothers t fun h => hnew (h ▸ ht)]
      simp [hbefore, hafter, hsame]
    · rw [ih hN ((mem_cons.mp htype).resolve_left (Ne.symm hother)), hothers other hother]
      omega

theorem Follows.qcount_pos (h : Follows owner r types answers entries job)
    (htype : type ∈ queried r.family) (hpending : (job.phase type).pending = true) :
    0 < job.block.qcount := by
  rw [h.qcount (ne_nil_of_mem htype)]
  exact Int.natCast_pos.mpr (countP_pos_iff.mpr ⟨type, htype, hpending⟩)

theorem anyData_append (answers : Answers) (type : RecordType) (data : Option (List (List UInt8))) :
    anyData (answers ++ [(type, data)]) = (anyData answers || data.isSome) := by
  simp [anyData]

theorem Stage.answered (h : Stage owner r answers entries job) {qcount : ℤ}
    {data : Option (List (List UInt8))} (htype : type ∈ queried r.family)
    (hpending : (job.phase type).pending = true) (hself : job'.phase type = .unlocked qcount)
    (hothers : ∀ other, other ≠ type → job'.phase other = job.phase other)
    (hreleased : job'.released = job.released)
    (hqcount : qcount = (queried r.family).countP fun type => (job'.phase type).pending)
    (hitems : items ++ kept r.max (returned owner r.name answers) =
      kept r.max (returned owner r.name (answers ++ [(type, data)]))) :
    Stage owner r (answers ++ [(type, data)]) (items ++ entries) job' := by
  obtain ⟨hnone, hphases, rfl⟩ := h.of_pending htype hpending
  rw [← hreleased] at hnone
  -- `qcount` counts the pending questions, so it tells this callback whether it is the last
  by_cases hopen : ∃ other ∈ queried r.family, (job'.phase other).pending = true
  · refine .waiting hnone (fun other hmem => ?_) (fun _ => hopen) hitems
    by_cases hother : other = type
    · right
      rw [hother, hself]
      change 0 < qcount
      rw [hqcount]
      exact Int.natCast_pos.mpr (countP_pos_iff.mpr hopen)
    · rw [hothers other hother]
      exact hphases other hmem
  · refine .closing type hnone htype (fun other hmem hne => ?_) ?_
    · rw [hothers other hne]
      refine (hphases other hmem).resolve_left fun hp => hopen ⟨other, hmem, ?_⟩
      rw [hothers other hne, hp]
    · rw [hself]
      refine ⟨?_, hitems⟩
      have hzero := countP_eq_zero.mpr fun other hmem hp => hopen ⟨other, hmem, hp⟩
      rw [hqcount, hzero]
      rfl

theorem Follows.answer (h : Follows owner r types answers entries job)
    (hphase : job.phase type = .asked) (data : Option (List (List UInt8))) :
    Follows owner r types (answers ++ [(type, data)]) ((underLock owner type data job.block []).2 ++ entries)
      (({ job with block := (underLock owner type data job.block []).1 } : Job).enter type
        (.unlocked (underLock owner type data job.block []).1.qcount)) := by
  have htype : type ∈ queried r.family := h.queried_of_phase (by rw [hphase]; simp)
  have hpending : (job.phase type).pending = true := by rw [hphase]; rfl
  have hunsent : type ∉ types := fun hmem => by
    have := (h.unasked type).mpr (Or.inr hmem)
    rw [hphase] at this
    cases this
  have hmax : job.block.max = remaining r.max (returned owner job.block.name answers).length := by
    rw [h.name]
    exact h.max
  obtain ⟨hblock, hitems⟩ := underLock_eq owner type data job.block hmax
  rw [h.name] at hblock hitems
  generalize underLock owner type data job.block [] = locked at hblock hitems ⊢
  obtain ⟨b, items⟩ := locked
  change b = _ at hblock
  obtain ⟨job', hjob'⟩ : ∃ job' : Job, job' = ({ job with block := b } : Job).enter type (.unlocked b.qcount) := ⟨_, rfl⟩
  have hb : job'.block = b := by rw [hjob']; rfl
  have hself : job'.phase type = .unlocked b.qcount := by rw [hjob', Job.enter_phase_self]
  have hothers (other : RecordType) (hne : other ≠ type) : job'.phase other = job.phase other := by
    rw [hjob', Job.enter_phase_of_ne hne]
  have hqcount : b.qcount = (queried r.family).countP fun type => (job'.phase type).pending := by
    have hcount := countP_pending_answered (nodup_queried r.family) htype hpending (by rw [hself]; rfl) hothers
    have hbefore := h.qcount (ne_nil_of_mem htype)
    rw [hcount] at hbefore
    rw [hblock]
    change job.block.qcount - 1 = _
    omega
  rw [← hjob']
  refine ⟨?_, ?_, ?_, ?_, fun _ => ?_, h.unsent, fun other => ?_,
    h.stage.answered htype hpending hself hothers (by rw [hjob']; rfl) hqcount hitems⟩
  · rw [hb, hblock]
  · rw [hb, hblock]
    exact h.family
  · rw [hb, hblock]
  · rw [hb, hblock, anyData_append, ← h.ok]
  · rw [hb]
    exact hqcount
  · by_cases hother : other = type
    · subst hother
      simp [hself, htype, hunsent]
    · rw [hothers other hother]
      exact h.unasked other

theorem Follows.enter (h : Follows owner r types answers entries job)
    (hbefore : (job.phase type).pending = false) (hblock : job'.block = job.block)
    (hphase : job'.phase = (job.enter type phase).phase) (hafter : phase.pending = false)
    (hstage : Stage owner r answers entries' job') :
    Follows owner r types answers entries' job' := by
  have hpending (other : RecordType) : (job'.phase other).pending = (job.phase other).pending := by
    rw [hphase]
    by_cases hother : other = type
    · rw [hother, Job.enter_phase_self, hbefore, hafter]
    · rw [Job.enter_phase_of_ne hother]
  refine ⟨?_, ?_, ?_, ?_, fun hq => ?_, h.unsent, fun other => ?_, hstage⟩
  · rw [hblock, h.name]
  · rw [hblock, h.family]
  · rw [hblock, h.max]
  · rw [hblock, h.ok]
  · simp only [hpending]
    rw [hblock]
    exact h.qcount hq
  · rw [← h.unasked, hphase]
    by_cases hother : other = type
    · rw [hother, Job.enter_phase_self]
      constructor <;> intro heq
      · rw [heq] at hafter
        cases hafter
      · rw [heq] at hbefore
        cases hbefore
    · rw [Job.enter_phase_of_ne hother]

theorem returned_of_not_anyData (owner : ℕ) (name : CStr) {answers : Answers}
    (h : anyData answers = false) : returned owner name answers = [] := by
  simp only [anyData, any_eq_false, Option.isSome_iff_ne_none, ne_eq, not_not] at h
  refine flatMap_eq_nil_iff.mpr fun answer hmem => ?_
  rw [h answer hmem]
  rfl

section

variable (h : Stage owner r answers entries job) (htype : type ∈ queried r.family)
  (hpending : (job.phase type).pending = false) (hidle : ¬ (job.phase type).Idle)
include h htype hpending hidle

theorem Stage.advance (hclosing : Closing owner r answers entries (job.phase type) → Closing owner r answers entries' phase) :
    Stage owner r answers entries' (job.enter type phase) := by
  obtain ⟨hreleased, hothers, hphase⟩ := h.of_not_idle htype hpending hidle
  refine .closing type hreleased htype (fun other hmem hne => ?_) ?_
  · rw [Job.enter_phase_of_ne hne]
    exact hothers other hmem hne
  · rw [Job.enter_phase_self]
    exact hclosing hphase

theorem Stage.release (hclosing : Closing owner r answers entries (job.phase type) → entries = expected owner r answers) :
    Stage owner r answers entries (job.release type) := by
  obtain ⟨hreleased, hothers, hphase⟩ := h.of_not_idle htype hpending hidle
  refine .closed (congrArg (· + 1) hreleased) (fun other hmem => ?_) (hclosing hphase)
  change ((job.enter type .finished).phase other).Idle
  by_cases hother : other = type
  · rw [hother, Job.enter_phase_self]
    trivial
  · rw [Job.enter_phase_of_ne hother]
    exact hothers other hmem hother

end

theorem Stage.finish (h : Stage owner r answers entries job)
    (hidle : (job.phase type).Idle) : Stage owner r answers entries (job.enter type .finished) := by
  have hkeep (other : RecordType) (hother : (job.phase other).Idle) : ((job.enter type .finished).phase other).Idle := by
    by_cases heq : other = type
    · rw [heq, Job.enter_phase_self]
      trivial
    · rw [Job.enter_phase_of_ne heq]
      exact hother
  have hne {other : RecordType} (hother : ¬ (job.phase other).Idle) : other ≠ type := by
    rintro rfl
    exact hother hidle
  have hopen {other : RecordType} (hp : (job.phase other).pending = true) :
      ((job.enter type .finished).phase other).pending = true := by
    rw [Job.enter_phase_of_ne (hne fun hi => ?_), hp]
    rw [Phase.pending_of_idle hi] at hp
    cases hp
  cases h with
  | waiting hreleased hphases hpending hentries =>
    refine .waiting hreleased (fun other hmem => ?_) (fun hq => ?_) hentries
    · exact (hphases other hmem).imp hopen (hkeep other)
    · obtain ⟨other, hmem, hp⟩ := hpending hq
      exact ⟨other, hmem, hopen hp⟩
  | closing last hreleased hlast hothers hclosing =>
    refine .closing last hreleased hlast (fun other hmem h => hkeep other (hothers other hmem h)) ?_
    rw [Job.enter_phase_of_ne (hne hclosing.not_idle)]
    exact hclosing
  | closed hreleased hall hentries =>
    exact .closed hreleased (fun other hmem => hkeep other (hall other hmem)) hentries

section

variable (h : Follows owner r types answers entries job)
  (hpending : (job.phase type).pending = false)
include h hpending

theorem Follows.queried_of_answered : type ∈ queried r.family := by
  refine h.queried_of_phase fun hphase => ?_
  rw [hphase] at hpending
  cases hpending

theorem Follows.advance (hidle : ¬ (job.phase type).Idle) (hafter : phase.pending = false)
    (hclosing : Closing owner r answers entries (job.phase type) → Closing owner r answers entries' phase)
    :
    Follows owner r types answers entries' (job.enter type phase) :=
  h.enter hpending rfl rfl hafter (h.stage.advance (h.queried_of_answered hpending) hpending hidle hclosing)

theorem Follows.release (hidle : ¬ (job.phase type).Idle)
    (hclosing : Closing owner r answers entries (job.phase type) → entries = expected owner r answers) :
    Follows owner r types answers entries (job.release type) :=
  h.enter hpending rfl rfl rfl (h.stage.release (h.queried_of_answered hpending) hpending hidle hclosing)

end

theorem Follows.resume (h : Follows owner r types answers entries job) {addrlist' : List Entry}
    (hresumes : Resumes owner type job addrlist job' addrlist' accesses) :
    Follows owner r types answers (written accesses ++ entries) job' := by
  cases hresumes with
  | spare hphase hqcount =>
    exact h.enter (by rw [hphase]; rfl) rfl rfl rfl (h.stage.finish (by rw [hphase]; exact hqcount))
  | resolved hphase hlast hok =>
    refine h.release (by rw [hphase]; rfl) (by rw [hphase]; exact not_lt.mpr hlast) ?_
    rw [hphase, expected, if_pos (h.ok.symm.trans hok)]
    exact And.right
  | failed hphase hlast hok =>
    have hpending : (job.phase type).pending = false := by rw [hphase]; rfl
    have hnone : anyData answers = false := h.ok.symm.trans hok
    have hqueried := ne_nil_of_mem (h.queried_of_answered hpending)
    refine h.advance hpending (by rw [hphase]; exact not_lt.mpr hlast) rfl ?_
    rw [hphase]
    rintro ⟨-, rfl⟩
    refine ⟨hnone, ?_⟩
    rw [reverse_reverse, returned_of_not_anyData _ _ hnone, expected, if_neg (by simp [hnone]),
      dummyEntries_eq h.name h.family hqueried]
    simp [written, kept]
  | created hphase =>
    refine h.release (by rw [hphase]; rfl) (by rw [hphase]; exact id) ?_
    rw [hphase]
    exact And.right
  | read hphase | write hphase =>
    refine h.advance (by rw [hphase]; rfl) (by rw [hphase]; exact id) rfl ?_
    rw [hphase]
    rintro ⟨hnone, hentries⟩
    exact ⟨hnone, by simpa [written, Access.items] using hentries⟩

end Name

def Adding.types (owner : ℕ) : Adding → List RecordType
  | .asking o types => if o = owner then types else []
  | _ => []

def Adding.unlinked (owner : ℕ) : Adding → List Entry
  | .linking item _ => if item.owner = owner then [item] else []
  | _ => []

variable (getNumericAddress : CStr → Option (Family × List UInt8))

def Account (owner : ℕ) (r : Request) (types : List RecordType) (unlinked : List Entry)
    (answers : Answers) (entries : List Entry) : Option Job → Prop
  | none => types = [] ∧ ∃ family addr, getNumericAddress r.name = some (family, addr) ∧
      unlinked ++ entries = [⟨owner, family, some addr, r.name⟩]
  | some job => getNumericAddress r.name = none ∧ unlinked = [] ∧
      Follows owner r types answers entries job

structure Accounts (requests : List Request) (s : State) (past : List Event) (log : List Entry) :
    Prop where
  rest : s.requests = requests.drop s.jobs.length
  bound : s.jobs.length ≤ requests.length
  names : ∀ i r o, requests[i]? = some r → s.jobs[i]? = some o →
    Account getNumericAddress i r (s.adding.types i) (s.adding.unlinked i) (answers i past) (ofName i log) o
  fresh : ∀ i, s.jobs.length ≤ i → answers i past = [] ∧ ofName i log = [] ∧ s.adding.types i = [] ∧ s.adding.unlinked i = []

variable {getNumericAddress} {owner : ℕ} {job : Job}

theorem answers_append (owner : ℕ) (past : List Event) (e : Event) : answers owner (past ++ [e]) =
      answers owner past ++ (answerTo owner e).toList := by
  rw [answers, filterMap_append]
  cases h : answerTo owner e <;> simp [answers, h]

theorem ofName_append (owner : ℕ) (first second : List Entry) :
    ofName owner (first ++ second) = ofName owner first ++ ofName owner second :=
  filter_append ..

theorem ofName_self (h : ∀ entry ∈ items, entry.owner = owner) : ofName owner items = items :=
  filter_eq_self.mpr fun entry hmem => decide_eq_true (h entry hmem)

theorem ofName_other (h : ∀ entry ∈ items, entry.owner = owner) {i : ℕ} (hi : i ≠ owner) : ofName i items = [] :=
  filter_eq_nil_iff.mpr fun entry hmem => by simp [h entry hmem, Ne.symm hi]

theorem Accounts.start (requests : List Request) : Accounts getNumericAddress requests (start requests) [] [] where
  rest := rfl
  bound := Nat.zero_le _
  names := by simp [ResolverThreads.start]
  fresh := fun _ _ => ⟨rfl, rfl, rfl, rfl⟩

variable {requests : List Request} {s s' : State} {past : List Event} {log : List Entry}
  {e : Event}

theorem Accounts.set_job (h : Accounts getNumericAddress requests s past log) {adding : Adding}
    (hjob : s.jobs[owner]? = some (some job)) (hitems : ∀ entry ∈ items, entry.owner = owner)
    (hanswer : ∀ i, i ≠ owner → answerTo i e = none)
    (htypes : ∀ i, i ≠ owner → adding.types i = s.adding.types i)
    (hunlinked : ∀ i, adding.unlinked i = s.adding.unlinked i)
    (hfollows : ∀ r, Follows owner r (s.adding.types owner) (answers owner past) (ofName owner log) job →
      Follows owner r (adding.types owner) (answers owner (past ++ [e]))
        (items ++ ofName owner log) job') : Accounts getNumericAddress requests
      { s with adding, jobs := s.jobs.set owner (some job'), addrlist } (past ++ [e])
      (items ++ log) := by
  obtain ⟨hlt, -⟩ := List.getElem?_eq_some_iff.mp hjob
  have hother (i : ℕ) (hi : i ≠ owner) : answers i (past ++ [e]) = answers i past ∧ ofName i (items ++ log) = ofName i log := by
    rw [answers_append, hanswer i hi, ofName_append, ofName_other hitems hi]
    simp
  refine ⟨?_, ?_, fun i r o hr ho => ?_, fun i hi => ?_⟩
  · rw [length_set]
    exact h.rest
  · rw [length_set]
    exact h.bound
  · rw [getElem?_set_job hjob] at ho
    simp only [hunlinked]
    by_cases hi : i = owner
    · subst hi
      rw [if_pos rfl] at ho
      cases ho
      obtain ⟨hnumeric, hnone, hjob⟩ := h.names i r _ hr hjob
      refine ⟨hnumeric, hnone, ?_⟩
      rw [ofName_append, ofName_self hitems]
      exact hfollows r hjob
    · rw [if_neg hi] at ho
      rw [(hother i hi).1, (hother i hi).2, htypes i hi]
      exact h.names i r o hr ho
  · rw [length_set] at hi
    have hne : i ≠ owner := by omega
    rw [(hother i hne).1, (hother i hne).2, htypes i hne, hunlinked]
    exact h.fresh i hi

theorem answers_queue (i : ℕ) (past : List Event) : answers i (past ++ [.queue]) = answers i past := by
  rw [answers_append]
  exact append_nil _

section

variable (h : Accounts getNumericAddress requests s past log)
include h

theorem Accounts.add {rest : List Request} {o : Option Job} {adding : Adding}
    (hidle : s.adding = .idle) (hrequests : s.requests = r :: rest)
    (hold : ∀ i, i ≠ s.jobs.length → adding.types i = [] ∧ adding.unlinked i = [])
    (hnew : Account getNumericAddress s.jobs.length r (adding.types s.jobs.length) (adding.unlinked s.jobs.length) [] [] o) :
    Accounts getNumericAddress requests
      { s with requests := rest, jobs := s.jobs ++ [o], adding } (past ++ [.queue]) log := by
  have hget : requests[s.jobs.length]? = some r := by
    have := congrArg head? (h.rest.symm.trans hrequests)
    simpa using this
  have hrest : rest = requests.drop (s.jobs.length + 1) := by
    have := congrArg tail (hrequests.symm.trans h.rest)
    simpa using this
  have hlength : (s.jobs ++ [o]).length = s.jobs.length + 1 := length_append
  refine ⟨?_, ?_, fun i r' o' hr' ho' => ?_, fun i hi => ?_⟩
  · rw [hlength]
    exact hrest
  · rw [hlength]
    exact (List.getElem?_eq_some_iff.mp hget).1
  · simp only [answers_queue]
    rcases AddressLimit.getElem?_concat_eq_some ho' with ⟨hlt, ho⟩ | ⟨rfl, rfl⟩
    · have hname := h.names i r' o' hr' ho
      rw [hidle] at hname
      rw [(hold i hlt.ne).1, (hold i hlt.ne).2]
      exact hname
    · obtain ⟨hanswers, hlog, -, -⟩ := h.fresh s.jobs.length le_rfl
      obtain rfl : r = r' := Option.some.inj (hget.symm.trans hr')
      rw [hanswers, hlog]
      exact hnew
  · rw [hlength] at hi
    obtain ⟨hanswers, hlog, -, -⟩ := h.fresh i (by omega)
    rw [answers_queue]
    exact ⟨hanswers, hlog, hold i (by omega)⟩

theorem Accounts.keep {item : Entry} {next : List Entry} (hlinking : s.adding = .linking item next) :
    Accounts getNumericAddress requests { s with adding := .idle, addrlist } (past ++ [.queue]) (item :: log) := by
  have hmoved (i : ℕ) : ofName i (item :: log) = s.adding.unlinked i ++ ofName i log := by
    rw [hlinking, Adding.unlinked, ofName, filter_cons]
    split_ifs <;> simp_all [ofName]
  have htypes (i : ℕ) : s.adding.types i = [] := by rw [hlinking]; rfl
  refine ⟨h.rest, h.bound, fun i r o hr ho => ?_, fun i hi => ?_⟩
  · have hname := h.names i r o hr ho
    rw [answers_queue, hmoved]
    rw [htypes] at hname
    cases o with
    | none => exact hname
    | some job =>
      obtain ⟨hnumeric, hnone, hjob⟩ := hname
      rw [hnone]
      exact ⟨hnumeric, rfl, hjob⟩
  · obtain ⟨hanswers, hlog, -, hnone⟩ := h.fresh i hi
    rw [answers_queue, hmoved, hnone]
    exact ⟨hanswers, hlog, rfl, rfl⟩

theorem Accounts.queued {owner : ℕ} (hasking : s.adding = .asking owner []) :
    Accounts getNumericAddress requests { s with adding := .idle } (past ++ [.queue]) log := by
  have hnone (i : ℕ) : s.adding.types i = [] ∧ s.adding.unlinked i = [] := by
    rw [hasking, Adding.types, ite_self]
    exact ⟨rfl, rfl⟩
  refine ⟨h.rest, h.bound, fun i r o hr ho => ?_, fun i hi => ?_⟩
  · have hname := h.names i r o hr ho
    rw [(hnone i).1, (hnone i).2] at hname
    rw [answers_queue]
    exact hname
  · obtain ⟨hanswers, hlog, -, -⟩ := h.fresh i hi
    rw [answers_queue]
    exact ⟨hanswers, hlog, rfl, rfl⟩

end

theorem owner_of_mem_underLock {type : RecordType} {data : Option (List (List UInt8))} {b : Block}
    (h : entry ∈ (underLock owner type data b []).2) : entry.owner = owner := by
  cases data with
  | none => cases h
  | some data =>
    obtain ⟨taken, htaken, -⟩ :=
      AddressLimit.takeRecords_spec owner type b.name b.max data []
    change entry ∈ (takeRecords owner type b.name b.max data []).2 at h
    rw [htaken, append_nil] at h
    obtain ⟨record, -, rfl⟩ := mem_map.mp h
    rfl

theorem Follows.owner_of_written {types : List RecordType} {answers : Answers}
    {entries : List Entry} (h : Follows owner r types answers entries job) {type : RecordType}
    {addrlist' : List Entry} (hresumes : Resumes owner type job addrlist job' addrlist' accesses) :
    ∀ entry ∈ written accesses, entry.owner = owner := by
  cases hresumes with
  | @write item next items hphase =>
    have hpending : (job.phase type).pending = false := by rw [hphase]; rfl
    obtain ⟨-, -, hclosing⟩ := h.stage.of_not_idle (h.queried_of_answered hpending) hpending (by rw [hphase]; exact id)
    rw [hphase] at hclosing
    obtain ⟨hnone, hentries⟩ := hclosing
    have hmem : item ∈ expected owner r answers := by
      rw [← hentries]
      simp
    rw [expected, if_neg (by simp [hnone]), mem_reverse] at hmem
    obtain ⟨t, -, rfl⟩ := mem_map.mp hmem
    intro entry hentry
    rw [mem_singleton.mp hentry]
    rfl
  | _ => exact fun entry hentry => by cases hentry

section

variable (h : Accounts getNumericAddress requests s past log)
include h

theorem Accounts.follows (hjob : s.jobs[owner]? = some (some job)) : ∃ r,
    Follows owner r (s.adding.types owner) (answers owner past) (ofName owner log) job := by
  obtain ⟨hlt, -⟩ := List.getElem?_eq_some_iff.mp hjob
  have hr := getElem?_eq_getElem (hlt.trans_le h.bound)
  obtain ⟨-, -, hfollows⟩ := h.names owner _ _ hr hjob
  exact ⟨_, hfollows⟩

theorem Accounts.move (hmove : Move getNumericAddress s e s' accesses) :
    Accounts getNumericAddress requests s' (past ++ [e]) (written accesses ++ log) := by
  cases hmove with
  | keeper hidle hrequests hnumeric =>
    refine h.add hidle hrequests (fun i hi => ⟨rfl, if_neg (Ne.symm hi)⟩) ⟨rfl, _, _, hnumeric, ?_⟩
    rw [Adding.unlinked, if_pos rfl]
    rfl
  | block hidle hrequests hnumeric =>
    refine h.add hidle hrequests (fun i hi => ⟨if_neg (Ne.symm hi), rfl⟩) ⟨hnumeric, rfl, ?_⟩
    rw [Adding.types, if_pos rfl]
    exact Follows.new _ _
  | keep hlinking => exact h.keep hlinking
  | queued hasking => exact h.queued hasking
  | @ask owner type types job hasking hjob =>
    have htypes (i : ℕ) (hi : i ≠ owner) : (Adding.asking owner types).types i = s.adding.types i := by
      rw [hasking, Adding.types, Adding.types, if_neg (Ne.symm hi), if_neg (Ne.symm hi)]
    have hnone : ∀ entry ∈ ([] : List Entry), entry.owner = owner := by simp
    refine h.set_job hjob hnone (fun _ _ => rfl) htypes (fun i => ?_) fun r hf => ?_
    · rw [hasking]
      rfl
    · rw [hasking, Adding.types, if_pos rfl] at hf
      rw [answers_queue, Adding.types, if_pos rfl]
      exact hf.ask
  | @answer owner type data job hjob hphase _ =>
    refine h.set_job hjob (fun entry hentry => ?_) (fun i hi => if_neg (Ne.symm hi))
      (fun _ _ => rfl) (fun _ => rfl) fun r hf => ?_
    · exact owner_of_mem_underLock (by simpa [written, Access.items] using hentry)
    · rw [answers_append, answerTo, if_pos rfl]
      exact hf.answer hphase data
  | @resume owner type job job' addrlist accesses hjob hresumes =>
    obtain ⟨_, hfollows⟩ := h.follows hjob
    refine h.set_job hjob (hfollows.owner_of_written hresumes) (fun _ _ => rfl) (fun _ _ => rfl) (fun _ => rfl) fun r hf => ?_
    rw [answers_append]
    simpa [answerTo] using hf.resume hresumes

theorem Accounts.trace (htrace : Trace getNumericAddress s events s' accesses) :
    Accounts getNumericAddress requests s' (past ++ events) (written accesses ++ log) := by
  induction htrace generalizing past log with
  | nil => simpa [written] using h
  | cons _ hmove _ ih =>
    have := ih (h.move hmove)
    rwa [append_assoc, singleton_append, ← append_assoc, ← SharedList.written_append] at this

end

theorem Follows.complete {answers : Answers} {entries : List Entry} (h : Follows owner r [] answers entries job)
    (hdone : ∀ type, job.phase type = .unasked ∨ job.phase type = .finished) :
    entries = expected owner r answers ∧ (queried r.family ≠ [] → job.released = 1) := by
  cases h.stage with
  | waiting _ _ hopen hentries =>
    have hqueried : queried r.family = [] := by
      by_contra hne
      obtain ⟨type, htype, hpending⟩ := hopen hne
      rcases hdone type with hphase | hphase
      · exact ((h.unasked type).mp hphase).elim (absurd htype) (by simp)
      · rw [hphase] at hpending
        cases hpending
    refine ⟨?_, absurd hqueried⟩
    rw [hentries, expected, hqueried]
    split_ifs with hany
    · rfl
    · rw [returned_of_not_anyData _ _ (by simpa using hany)]
      simp [kept]
  | closing last _ _ _ hclosing =>
    rcases hdone last with hphase | hphase <;> rw [hphase] at hclosing <;> cases hclosing
  | closed hreleased _ hentries => exact ⟨hentries, fun _ => hreleased⟩

theorem kept_subperm (max : ℤ) (entries : List Entry) : (kept max entries).Subperm entries := by
  refine (reverse_perm _).subperm.trans (Sublist.subperm ?_)
  split_ifs
  · exact take_sublist _ _
  · exact Sublist.refl _

theorem listed_expected {answers : Answers} (hnumeric : getNumericAddress r.name = none) :
    Listed getNumericAddress owner r answers (expected owner r answers) := by
  rw [Listed, hnumeric, expected]
  cases anyData answers with
  | true => exact ⟨kept_subperm _ _, length_kept _ _⟩
  | false => exact reverse_perm _

theorem Listed.length_eq {answers : Answers} {first second : List Entry} (h₁ : Listed getNumericAddress owner r answers first)
    (h₂ : Listed getNumericAddress owner r answers second) : first.length = second.length := by
  rw [Listed] at h₁ h₂
  cases hnumeric : getNumericAddress r.name with
  | some address =>
    rw [hnumeric] at h₁ h₂
    exact congrArg length (h₁.trans h₂.symm)
  | none =>
    rw [hnumeric] at h₁ h₂
    cases hany : anyData answers with
    | true =>
      rw [hany] at h₁ h₂
      exact h₁.2.trans h₂.2.symm
    | false =>
      rw [hany] at h₁ h₂
      exact (Perm.trans h₁ (List.Perm.symm h₂)).length_eq

theorem length_le_of_ofName {first second : List Entry}
    (h : ∀ entry ∈ first, (ofName entry.owner first).length = (ofName entry.owner second).length) :
    first.length ≤ second.length := by
  have hcount (i : ℕ) (l : List Entry) : (l.map Entry.owner).count i = (ofName i l).length := by
    rw [count_eq_countP, countP_map, countP_eq_length_filter, ofName]
    congr 1
  have hsub : (first.map Entry.owner).Subperm (second.map Entry.owner) := by
    refine subperm_ext_iff.mpr fun i hi => ?_
    obtain ⟨entry, hmem, rfl⟩ := mem_map.mp hi
    rw [hcount, hcount, h entry hmem]
  simpa using hsub.length_le

theorem Accounts.complete (h : Accounts getNumericAddress requests s past log) (hdone : Complete s)
    (hr : requests[owner]? = some r) :
    Listed getNumericAddress owner r (answers owner past) (ofName owner log) ∧
      ReleasedOnce getNumericAddress owner r s := by
  obtain ⟨hrequests, hidle, hphases⟩ := hdone
  have hlt : owner < s.jobs.length := by
    have hall := drop_eq_nil_iff.mp (h.rest.symm.trans hrequests)
    have := (List.getElem?_eq_some_iff.mp hr).1
    omega
  have ho := getElem?_eq_getElem hlt
  have haccount := h.names owner r _ hr ho
  rw [hidle] at haccount
  cases hjob : s.jobs[owner] with
  | none =>
    rw [hjob] at haccount
    obtain ⟨-, family, addr, hnumeric, hentries⟩ := haccount
    refine ⟨?_, fun hnone => by rw [hnumeric] at hnone; cases hnone⟩
    rw [Listed, hnumeric]
    exact hentries
  | some job =>
    rw [hjob] at haccount ho
    obtain ⟨hnumeric, -, hfollows⟩ := haccount
    obtain ⟨hentries, hreleased⟩ :=
      hfollows.complete (hphases (some job) (mem_of_getElem? ho) job rfl)
    rw [hentries]
    exact ⟨listed_expected hnumeric, fun _ hqueried => ⟨job, ho, hreleased hqueried⟩⟩

theorem Accounts.owner_lt (h : Accounts getNumericAddress requests s past log)
    (hentry : entry ∈ log) : entry.owner < requests.length := by
  by_contra hge
  obtain ⟨-, hnone, -⟩ := h.fresh entry.owner (by have := h.bound; omega)
  exact filter_eq_nil_iff.mp hnone entry hentry (decide_eq_true rfl)

theorem accounts_of_run (hrun : run getNumericAddress (start requests) events = some s) :
    ∃ accesses, Trace getNumericAddress (start requests) events s accesses ∧
      Accounts getNumericAddress requests s events (written accesses) := by
  obtain ⟨accesses, htrace⟩ := trace_of_run hrun
  have haccounts := (Accounts.start requests).trace htrace
  rw [append_nil, nil_append] at haccounts
  exact ⟨accesses, htrace, haccounts⟩

theorem block_in_use {type : RecordType} (hrun : run getNumericAddress (start requests) events = some s)
    (hjob : s.jobs[owner]? = some (some job)) (hasked : job.phase type ≠ .unasked)
    (huse : ¬ (job.phase type).Idle) :
    job.released = 0 ∧ (job.phase type = .asked → 0 < job.block.qcount) := by
  obtain ⟨accesses, -, haccounts⟩ := accounts_of_run hrun
  obtain ⟨r, hfollows⟩ := haccounts.follows hjob
  have htype := hfollows.queried_of_phase hasked
  constructor
  · cases hpending : (job.phase type).pending with
    | true => exact (hfollows.stage.of_pending htype hpending).1
    | false => exact (hfollows.stage.of_not_idle htype hpending huse).1
  · intro hphase
    exact hfollows.qcount_pos htype (by rw [hphase]; rfl)

theorem exists_resume (owner : ℕ) {type : RecordType} (job : Job) (addrlist : List Entry)
    (hpending : (job.phase type).pending = false) (hrunning : job.phase type ≠ .finished) :
    ∃ result, job.resume owner type addrlist = some result := by
  rw [Job.resume]
  cases hphase : job.phase type with
  | unasked | asked => rw [hphase] at hpending; cases hpending
  | unlocked qcount =>
    simp only
    split_ifs <;> exact ⟨_, rfl⟩
  | creating items => cases items <;> exact ⟨_, rfl⟩
  | linking => exact ⟨_, rfl⟩
  | finished => exact absurd hphase hrunning

theorem exists_callback_step {type : RecordType} (hrun : run getNumericAddress (start requests) events = some s)
    (hjob : s.jobs[owner]? = some (some job)) (hasked : job.phase type ≠ .unasked)
    (hrunning : job.phase type ≠ .finished) : ∃ e s', step getNumericAddress s e = some s' := by
  by_cases hphase : job.phase type = .asked
  · have huse : ¬ (job.phase type).Idle := by rw [hphase]; exact id
    have hqcount := (block_in_use hrun hjob hasked huse).2 hphase
    refine ⟨.answer owner type none, ?_⟩
    simp only [step, onJob, hjob, Job.answer, hphase, if_pos hqcount]
    exact ⟨_, rfl⟩
  · have hpending : (job.phase type).pending = false := by
      cases h : job.phase type <;> first | rfl | contradiction
    obtain ⟨result, hresume⟩ := exists_resume owner job s.addrlist hpending hrunning
    refine ⟨.resume owner type, ?_⟩
    simp only [step, onJob, hjob, hresume]
    exact ⟨_, rfl⟩

theorem exists_queue_step (h : Accounts getNumericAddress requests s past log) (hbusy : s.adding ≠ .idle ∨ s.requests ≠ []) :
    ∃ s', step getNumericAddress s .queue = some s' := by
  rw [step, ampResolveAdd]
  cases hadding : s.adding with
  | idle =>
    cases hrequests : s.requests with
    | nil => exact absurd hrequests (hbusy.resolve_left (absurd hadding))
    | cons r rest =>
      simp only
      cases getNumericAddress r.name <;> exact ⟨_, rfl⟩
  | linking item next => exact ⟨_, rfl⟩
  | asking owner types =>
    cases types with
    | nil => exact ⟨_, rfl⟩
    | cons type types =>
      have htypes : s.adding.types owner = type :: types := by
        rw [hadding, Adding.types, if_pos rfl]
      have hlt : owner < s.jobs.length := by
        by_contra hge
        have := (h.fresh owner (by omega)).2.2.1
        rw [htypes] at this
        cases this
      have ho := getElem?_eq_getElem hlt
      have haccount := h.names owner _ _ (getElem?_eq_getElem (hlt.trans_le h.bound)) ho
      cases hjob : s.jobs[owner] with
      | none =>
        rw [hjob, htypes] at haccount
        cases haccount.1
      | some job =>
        rw [hjob] at ho
        simp only [ho]
        exact ⟨_, rfl⟩

/-- No callback uses a block that is released or finds its counter used up, and some thread can go on
until the run is complete. -/
theorem threads_safe_and_live {events : List Event} (hrun : run getNumericAddress (start requests) events = some s) :
    (∀ (owner : ℕ) (job : Job) (type : RecordType), s.jobs[owner]? = some (some job) →
        job.phase type ≠ .unasked → ¬ (job.phase type).Idle →
        job.released = 0 ∧ (job.phase type = .asked → 0 < job.block.qcount)) ∧
      (¬ Complete s → ∃ e s', step getNumericAddress s e = some s') := by
  refine ⟨fun owner job type hjob => block_in_use hrun hjob, fun hdone => ?_⟩
  by_cases hbusy : s.adding ≠ .idle ∨ s.requests ≠ []
  · obtain ⟨accesses, -, haccounts⟩ := accounts_of_run hrun
    exact ⟨.queue, exists_queue_step haccounts hbusy⟩
  · push Not at hbusy
    by_contra hstuck
    refine hdone ⟨hbusy.2, hbusy.1, fun o ho job hjob type => ?_⟩
    obtain ⟨owner, howner⟩ := mem_iff_getElem?.mp ho
    rw [Option.mem_def.mp hjob] at howner
    by_contra hphase
    push Not at hphase
    exact hstuck (exists_callback_step hrun howner hphase.1 hphase.2)

/-- Exactly if every thread that wrote the head without the lock found the head it had read. -/
theorem resolved_iff_undisturbed (getNumericAddress : CStr → Option (Family × List UInt8))
    (requests : List Request) (events : List Event) (s : State)
    (hrun : run getNumericAddress (start requests) events = some s) (hdone : Complete s) :
    Resolved getNumericAddress requests events s ↔ Undisturbed getNumericAddress (start requests) events := by
  obtain ⟨accesses, htrace, haccounts⟩ := accounts_of_run hrun
  obtain ⟨hcase, hiff⟩ := trace_addrlist htrace
  -- what was written satisfies every name, and a list that lost something is shorter
  rw [← hiff]
  constructor
  · intro hresolved
    refine hcase.resolve_right (not_lt.mpr (length_le_of_ofName fun entry hentry => ?_))
    have hr := getElem?_eq_getElem (haccounts.owner_lt hentry)
    exact (haccounts.complete hdone hr).1.length_eq (hresolved _ _ hr).1
  · intro hlist owner r hr
    rw [hlist]
    exact haccounts.complete hdone hr

def numericHost (name : CStr) : Option (Family × List UInt8) :=
  if name = cstr "192.0.2.1" then some (.inet, [192, 0, 2, 1]) else none

def threeNames : List Request :=
  [⟨cstr "host", 0, 2⟩, ⟨cstr "192.0.2.1", 0, 0⟩, ⟨cstr "missing", 2, 0⟩]

def orderlyRun : List Event :=
  [.queue, .queue, .queue, .answer 0 .a (some [[10, 0, 0, 1], [10, 0, 0, 2]]), .queue, .queue, .queue,
    .resume 0 .a, .queue, .answer 0 .aaaa (some [[32, 1]]), .queue, .queue, .resume 0 .aaaa,
    .answer 2 .a none, .resume 2 .a, .resume 2 .a, .resume 2 .a, .resume 2 .a]

/-- While one answer to the first name is awaited and the last name is looked up. -/
theorem three_names_go_on : ∃ s job, run numericHost (start threeNames) (orderlyRun.take 9) = some s ∧
    s.jobs[0]? = some (some job) ∧ job.phase .aaaa = .asked ∧
      (job.released = 0 ∧ 0 < job.block.qcount) ∧ ∃ e s', step numericHost s e = some s' := by
  have hany : (run numericHost (start threeNames) (orderlyRun.take 9)).any (fun s =>
      s.jobs[0]?.join.any (fun job => job.phase .aaaa = .asked) && !decide (Complete s)) = true := by
    decide +kernel
  obtain ⟨s, hrun, hs⟩ := (Option.any_eq_true _ _).mp hany
  rw [Bool.and_eq_true, Bool.not_eq_true', decide_eq_false_iff_not] at hs
  obtain ⟨job, hjob, hphase⟩ := (Option.any_eq_true _ _).mp hs.1
  have hasked : job.phase .aaaa = .asked := of_decide_eq_true hphase
  have hjob' : s.jobs[0]? = some (some job) := Option.join_eq_some_iff.mp hjob
  obtain ⟨hsafe, hlive⟩ := threads_safe_and_live hrun
  obtain ⟨hreleased, hcount⟩ := hsafe 0 job .aaaa hjob' (by simp [hasked]) (by simp [hasked, Phase.Idle])
  exact ⟨s, job, hrun, hjob', hasked, ⟨hreleased, hcount hasked⟩, hlive hs.2⟩

theorem three_names_resolved : ∃ s, run numericHost (start threeNames) orderlyRun = some s ∧ Complete s ∧
      Undisturbed numericHost (start threeNames) orderlyRun ∧
      Resolved numericHost threeNames orderlyRun s := by
  obtain ⟨s, hs⟩ : ∃ s, s = (run numericHost (start threeNames) orderlyRun).get (by decide +kernel) :=
    ⟨_, rfl⟩
  have hrun : run numericHost (start threeNames) orderlyRun = some s := by rw [hs, Option.some_get]
  have hdone : Complete s := by
    rw [hs]
    decide +kernel
  have horderly : Undisturbed numericHost (start threeNames) orderlyRun := by decide +kernel
  exact ⟨s, hrun, hdone, horderly, (resolved_iff_undisturbed numericHost threeNames orderlyRun s hrun hdone).mpr horderly⟩

def overtakenRun : List Event :=
  [.queue, .queue, .queue, .queue, .answer 0 .a (some [[10, 0, 0, 1]]), .queue, .resume 0 .a]

def nameAndNumber : List Request := [⟨cstr "host", 2, 0⟩, ⟨cstr "192.0.2.1", 0, 0⟩]

theorem resolved_address_lost : ∃ s, run numericHost (start nameAndNumber) overtakenRun = some s ∧ Complete s ∧
      s.addrlist = [⟨1, .inet, some [192, 0, 2, 1], cstr "192.0.2.1"⟩] ∧
      ¬ Resolved numericHost nameAndNumber overtakenRun s := by
  obtain ⟨s, hs⟩ : ∃ s, s = (run numericHost (start nameAndNumber) overtakenRun).get (by decide +kernel) := ⟨_, rfl⟩
  have hlist : s.addrlist = [⟨1, .inet, some [192, 0, 2, 1], cstr "192.0.2.1"⟩] := by
    rw [hs]
    decide +kernel
  refine ⟨s, by rw [hs, Option.some_get], by rw [hs]; decide +kernel, hlist, fun hresolved => ?_⟩
  have hhost := (hresolved 0 ⟨cstr "host", 2, 0⟩ rfl).1
  rw [hlist] at hhost
  exact absurd hhost.2 (by decide +kernel)

section Socket

open ResolverSocket
open SocketAddress (Endian)

/-- What the worker gives to `amp_resolve_add` for a query that it has read. -/
def request (q : Query) : Request := ⟨q.name, q.family.toNat, q.count.toNat⟩

theorem canonname_of_listed {answers : Answers} {entries : List Entry}
    (h : Listed getNumericAddress owner r answers entries) (hentry : entry ∈ entries) :
    entry.canonname = r.name := by
  unfold Listed at h
  split at h
  · rw [h, mem_singleton] at hentry
    rw [hentry]
  · dsimp only at h
    split at h
    · obtain ⟨answer, -, hmem⟩ := mem_flatMap.mp (h.1.subset hentry)
      obtain ⟨record, -, rfl⟩ := mem_map.mp hmem
      rfl
    · obtain ⟨type, -, rfl⟩ := mem_map.mp (h.mem_iff.mp hentry)
      rfl

/-- From the test to the threads and back, for any way in which the worker lays out an entry. -/
theorem addresses_reach_test (e : Endian) {dests : List ResolveDest}
    (hdests : ∀ d ∈ dests, 0 ∉ d.name ∧ 1 ≤ d.name.length ∧ Fits d.name) {turns turns' : ℕ}
    (hturns : dests.length < turns) {info name item name' : List UInt8} (hinfo : info.length = 3)
    (hname : name.length = maxDnsNameLen) {events : List Event}
    (hrun : run getNumericAddress (start ((readQueries turns info name (sendQueries dests)).1.map request))
      events = some s) (hdone : Complete s)
    (horderly : Undisturbed getNumericAddress (start ((readQueries turns info name (sendQueries dests)).1.map request)) events)
    {layout : Entry → Answer × Vector UInt8 28}
    (hlayout : ∀ x ∈ s.addrlist, (layout x).1.canonname = x.canonname ∧ (layout x).1.addr.length < 2 ^ 32)
    (hturns' : s.addrlist.length < turns') (hitem : item.length = 48) (hname' : name'.length = maxDnsNameLen) :
    (sendAnswers e (s.addrlist.map layout)).bind (ampResolveGetList e turns' item name' []) =
        some (s.addrlist.map fun x => (layout x).1).reverse ∧
      Resolved getNumericAddress (dests.map fun d => request (query d)) events s := by
  have hread := (readQueries_sendQueries (fun d hd => (hdests d hd).1) hturns hinfo hname).mpr fun d hd => (hdests d hd).2.2
  rw [hread] at hrun horderly
  simp only [map_map] at hrun horderly
  obtain ⟨accesses, htrace, haccounts⟩ := accounts_of_run hrun
  have hlist := (trace_addrlist htrace).2.mpr horderly
  have hresolved : Resolved getNumericAddress (dests.map (request ∘ query)) events s := by
    intro owner r hr
    rw [hlist]
    exact haccounts.complete hdone hr
  have hnamed : ∀ x ∈ s.addrlist, ∃ d ∈ dests, x.canonname = d.name := by
    intro x hx
    have hlt := haccounts.owner_lt (hlist ▸ hx)
    have hr := getElem?_eq_getElem hlt
    have hmem : x ∈ ofName x.owner s.addrlist := mem_filter.mpr ⟨hx, decide_eq_true rfl⟩
    obtain ⟨d, hd, heq⟩ := mem_map.mp (getElem_mem hlt)
    exact ⟨d, hd, (canonname_of_listed (hresolved _ _ hr).1 hmem).trans (heq ▸ rfl)⟩
  have hanswers : ∀ a ∈ s.addrlist.map layout, (a.1.addr.length < 2 ^ 32 ∧ 0 ∉ a.1.canonname) ∧
      1 ≤ a.1.canonname.length ∧ Fits a.1.canonname := by
    intro a ha
    obtain ⟨x, hx, rfl⟩ := mem_map.mp ha
    obtain ⟨d, hd, heq⟩ := hnamed x hx
    rw [(hlayout x hx).1, heq]
    exact ⟨⟨(hlayout x hx).2, (hdests d hd).1⟩, (hdests d hd).2⟩
  have hback := (ampResolveGetList_sendAnswers e (fun a ha => (hanswers a ha).1)
    (by simpa using hturns') hitem hname' []).mpr fun a ha => (hanswers a ha).2
  exact ⟨by simpa [Function.comp_def] using hback, hresolved⟩

def threeDests : List ResolveDest :=
  [⟨cstr "host", .unspec, 2⟩, ⟨cstr "192.0.2.1", .unspec, 0⟩, ⟨cstr "missing", .inet, 0⟩]

def plainLayout (x : Entry) : Answer × Vector UInt8 28 :=
  (⟨0, 0, 0, 0, x.addr.getD [], x.canonname⟩, Vector.replicate 28 0)

theorem three_names_reach_test : ∃ s, run numericHost (start threeNames) orderlyRun = some s ∧
      (sendAnswers .little (s.addrlist.map plainLayout)).bind (ampResolveGetList .little 8
          (replicate 48 0) (replicate maxDnsNameLen 0) []) =
        some (s.addrlist.map fun x => (plainLayout x).1).reverse ∧
      Resolved numericHost (threeDests.map fun d => request (query d)) orderlyRun s := by
  obtain ⟨s, hs⟩ : ∃ s, s = (run numericHost (start threeNames) orderlyRun).get (by decide +kernel) :=
    ⟨_, rfl⟩
  have hrun : run numericHost (start threeNames) orderlyRun = some s := by rw [hs, Option.some_get]
  have hnames : (readQueries 4 [0, 0, 0] (replicate maxDnsNameLen 0) (sendQueries threeDests)).1.map
      request = threeNames := by decide +kernel
  have hfew : (∀ x ∈ s.addrlist, (x.addr.getD []).length < 2 ^ 32) ∧ s.addrlist.length < 8 ∧ Complete s := by
    rw [hs]
    decide +kernel
  exact ⟨s, hrun, addresses_reach_test .little (by decide) (by decide) rfl length_replicate
    (hnames ▸ hrun) hfew.2.2 (hnames ▸ by decide +kernel) (fun x hx => ⟨rfl, hfew.1 x hx⟩) hfew.2.1
    length_replicate length_replicate⟩

end Socket

end Amplet.ResolverThreads
