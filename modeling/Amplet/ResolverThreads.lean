import Amplet.AddressLimit
import Amplet.SharedList

/-!
# Resolver threads

Embedding of `amp_resolve_add` and `amp_resolve_callback` in `src/common/ampresolv.c`,
taken apart where they use the address list. One thread queues names; the callbacks run
in other threads. A callback holds the lock while it takes the records of its answer, so
that is one step. A numeric address and the entries of a name that did not resolve are
put on the list without the lock: the head is read in one step and written in another. A
pointer to a node stands for the list behind it.
-/

namespace Amplet.ResolverThreads
open List Function Option Bytes TargetLists
open AddressLimit (RecordType Block Entry takeRecords dummyEntries underLock)
open SharedList (Access Shared)

instance : Fintype RecordType := ⟨{.a, .aaaa}, fun type => by cases type <;> decide⟩

structure Request where
  name : CStr
  family : ℤ
  max : ℤ
deriving DecidableEq, Repr

inductive Phase
  | unasked
  | asked
  /-- The lock is given back, `qcount` is the local copy. -/
  | unlocked (qcount : ℤ)
  | creating (items : List Entry)
  /-- `item->ai_next` is set, the head of the list not yet. -/
  | linking (item : Entry) (next : List Entry) (items : List Entry)
  | finished
deriving DecidableEq, Repr

structure Job where
  block : Block
  phase : RecordType → Phase
  released : ℕ

inductive Adding
  | idle
  | linking (item : Entry) (next : List Entry)
  | asking (owner : ℕ) (types : List RecordType)
deriving DecidableEq, Repr

structure State where
  requests : List Request
  adding : Adding
  jobs : List (Option Job)
  addrlist : List Entry

inductive Event
  | queue
  | answer (owner : ℕ) (type : RecordType) (data : Option (List (List UInt8)))
  | resume (owner : ℕ) (type : RecordType)
deriving DecidableEq, Repr

def Job.enter (type : RecordType) (phase : Phase) (job : Job) : Job :=
  { job with phase := update job.phase type phase }

def Job.release (type : RecordType) (job : Job) : Job :=
  { job.enter type .finished with released := job.released + 1 }

@[simp]
theorem Job.enter_phase_self (type : RecordType) (phase : Phase) (job : Job) : (job.enter type phase).phase type = phase := by
  simp [Job.enter]

variable {type : RecordType}

theorem Job.enter_phase_of_ne {other : RecordType} (h : other ≠ type) (phase : Phase) (job : Job) :
    (job.enter type phase).phase other = job.phase other := by
  simp [Job.enter, h]

def queried (family : ℤ) : List RecordType :=
  (if family = 0 ∨ family = 2 then [.a] else []) ++ (if family = 0 ∨ family = 10 then [.aaaa] else [])

def ampResolveData (r : Request) : Block :=
  let family := UInt8.ofInt r.family
  ⟨r.name, if 0 < r.max then r.max else -1, if family = 0 then 2 else 1, false, family⟩

def ampResolveAdd (getNumericAddress : CStr → Option (Family × List UInt8)) (s : State) :
    Option State :=
  match s.adding with
  | .idle =>
    match s.requests with
    | [] => none
    | r :: requests =>
      match getNumericAddress r.name with
      | some (family, addr) =>
        -- `keeper->ai_next = *res`, without the lock
        some { s with
          requests
          jobs := s.jobs ++ [none]
          adding := .linking ⟨s.jobs.length, family, some addr, r.name⟩ s.addrlist }
      | none =>
        some { s with
          requests
          jobs := s.jobs ++ [some ⟨ampResolveData r, fun _ => .unasked, 0⟩]
          adding := .asking s.jobs.length (queried r.family) }
  | .linking item next => some { s with adding := .idle, addrlist := item :: next }
  | .asking _ [] => some { s with adding := .idle }
  | .asking owner (type :: types) =>
    match s.jobs[owner]? with
    | some (some job) =>
      some { s with
        adding := .asking owner types
        jobs := s.jobs.set owner (some (job.enter type .asked)) }
    | _ => none

def Job.answer (owner : ℕ) (type : RecordType) (data : Option (List (List UInt8))) (job : Job)
    (addrlist : List Entry) : Option (Job × List Entry) :=
  match job.phase type with
  | .asked =>
    -- `assert(data->qcount > 0)`
    if 0 < job.block.qcount then
      let (block, addrlist) := underLock owner type data job.block addrlist
      some (({ job with block } : Job).enter type (.unlocked block.qcount), addrlist)
    else none
  | _ => none

def Job.resume (owner : ℕ) (type : RecordType) (job : Job) (addrlist : List Entry) : Option (Job × List Entry) :=
  match job.phase type with
  | .unlocked qcount =>
    if qcount ≤ 0 then
      -- no outstanding queries for this name
      if job.block.ok then some (job.release type, addrlist)
      else some (job.enter type (.creating (dummyEntries owner job.block).reverse), addrlist)
    else some (job.enter type .finished, addrlist)
  | .creating [] => some (job.release type, addrlist)
  | .creating (item :: items) => some (job.enter type (.linking item addrlist items), addrlist)
  | .linking item next items => some (job.enter type (.creating items), item :: next)
  | _ => none

def onJob (s : State) (owner : ℕ) (f : Job → List Entry → Option (Job × List Entry)) :
    Option State :=
  match s.jobs[owner]? with
  | some (some job) =>
    (f job s.addrlist).map fun (job, addrlist) =>
      { s with jobs := s.jobs.set owner (some job), addrlist }
  | _ => none

variable (getNumericAddress : CStr → Option (Family × List UInt8))

def step (s : State) : Event → Option State
  | .queue => ampResolveAdd getNumericAddress s
  | .answer owner type data => onJob s owner (Job.answer owner type data)
  | .resume owner type => onJob s owner (Job.resume owner type)

def run (s : State) (events : List Event) : Option State :=
  events.foldlM (step getNumericAddress) s

def start (requests : List Request) : State := ⟨requests, .idle, [], []⟩

def Complete (s : State) : Prop :=
  s.requests = [] ∧ s.adding = .idle ∧ ∀ o ∈ s.jobs, ∀ job ∈ o, ∀ type, job.phase type = .unasked ∨ job.phase type = .finished

instance (s : State) : Decidable (Complete s) :=
  inferInstanceAs (Decidable (_ ∧ _ ∧ _))

def Adding.next : Adding → Option (List Entry)
  | .linking _ next => some next
  | _ => none

def Phase.next : Phase → Option (List Entry)
  | .linking _ next _ => some next
  | _ => none

def State.next (s : State) : Event → Option (List Entry)
  | .queue => s.adding.next
  | .answer _ _ _ => none
  | .resume owner type =>
    match s.jobs[owner]? with
    | some (some job) => (job.phase type).next
    | _ => none

/-- A thread that is about to write the head finds the one it has read. -/
def Current (s : State) (e : Event) : Prop := ∀ next ∈ s.next e, next = s.addrlist

instance (s : State) (e : Event) : Decidable (Current s e) :=
  inferInstanceAs (Decidable (∀ next ∈ s.next e, next = s.addrlist))

def Undisturbed (s : State) : List Event → Prop
  | [] => True
  | e :: events => Current s e ∧ ∀ s' ∈ step getNumericAddress s e, Undisturbed s' events

instance Undisturbed.decidable (s : State) : (events : List Event) → Decidable (Undisturbed getNumericAddress s events)
  | [] => isTrue trivial
  | e :: events =>
    have (s' : State) := Undisturbed.decidable s' events
    inferInstanceAs (Decidable (Current s e ∧ ∀ s' ∈ step getNumericAddress s e, Undisturbed getNumericAddress s' events))

section Contents

def answerTo (owner : ℕ) : Event → Option (RecordType × Option (List (List UInt8)))
  | .answer o type data => if o = owner then some (type, data) else none
  | _ => none

abbrev Answers := List (RecordType × Option (List (List UInt8)))

def answers (owner : ℕ) (events : List Event) : Answers := events.filterMap (answerTo owner)

def anyData (answers : Answers) : Bool := answers.any fun answer => answer.2.isSome

def recordEntry (owner : ℕ) (name : CStr) (type : RecordType) (record : List UInt8) : Entry :=
  ⟨owner, type.family, some record, name⟩

def dummyEntry (owner : ℕ) (name : CStr) (type : RecordType) : Entry :=
  ⟨owner, type.family, none, name⟩

def returned (owner : ℕ) (name : CStr) (answers : Answers) : List Entry :=
  answers.flatMap fun answer => (answer.2.getD []).map (recordEntry owner name answer.1)

def ofName (owner : ℕ) (addrlist : List Entry) : List Entry :=
  addrlist.filter fun entry => entry.owner = owner

def Listed (owner : ℕ) (r : Request) (answers : Answers) (entries : List Entry) : Prop :=
  match getNumericAddress r.name with
  | some (family, addr) => entries = [⟨owner, family, some addr, r.name⟩]
  | none =>
    let total := returned owner r.name answers
    if anyData answers then
      entries.Subperm total ∧ entries.length = if 0 < r.max then min r.max.toNat total.length else total.length
    else entries.Perm ((queried r.family).map (dummyEntry owner r.name))

def ReleasedOnce (owner : ℕ) (r : Request) (s : State) : Prop :=
  getNumericAddress r.name = none → queried r.family ≠ [] → ∃ job, s.jobs[owner]? = some (some job) ∧ job.released = 1

def Resolved (requests : List Request) (events : List Event) (s : State) : Prop :=
  ∀ owner r, requests[owner]? = some r → Listed getNumericAddress owner r (answers owner events) (ofName owner s.addrlist) ∧
      ReleasedOnce getNumericAddress owner r s

end Contents

variable {job' : Job} {addrlist : List Entry} {events : List Event}

section Trace

inductive Thread
  | queue
  | callback (owner : ℕ) (type : RecordType)
deriving DecidableEq

def Event.thread : Event → Thread
  | .queue => .queue
  | .answer owner type _ => .callback owner type
  | .resume owner type => .callback owner type

inductive Resumes (owner : ℕ) (type : RecordType) (job : Job) (addrlist : List Entry) :
    Job → List Entry → List (Access Thread Entry) → Prop
  | spare {qcount : ℤ} : job.phase type = .unlocked qcount → 0 < qcount →
      Resumes owner type job addrlist (job.enter type .finished) addrlist []
  | resolved {qcount : ℤ} : job.phase type = .unlocked qcount → qcount ≤ 0 →
      job.block.ok = true → Resumes owner type job addrlist (job.release type) addrlist []
  | failed {qcount : ℤ} : job.phase type = .unlocked qcount → qcount ≤ 0 →
      job.block.ok = false →
      Resumes owner type job addrlist (job.enter type (.creating (dummyEntries owner job.block).reverse)) addrlist []
  | created : job.phase type = .creating [] →
      Resumes owner type job addrlist (job.release type) addrlist []
  | read {item : Entry} {items : List Entry} : job.phase type = .creating (item :: items) →
      Resumes owner type job addrlist (job.enter type (.linking item addrlist items)) addrlist [.read (.callback owner type)]
  | write {item : Entry} {next items : List Entry} : job.phase type = .linking item next items →
      Resumes owner type job addrlist (job.enter type (.creating items)) (item :: next) [.write (.callback owner type) item]

inductive Move (s : State) : Event → State → List (Access Thread Entry) → Prop
  | keeper {r : Request} {requests : List Request} {family : Family} {addr : List UInt8} :
      s.adding = .idle → s.requests = r :: requests →
      getNumericAddress r.name = some (family, addr) →
      Move s .queue
        { s with
          requests
          jobs := s.jobs ++ [none]
          adding := .linking ⟨s.jobs.length, family, some addr, r.name⟩ s.addrlist }
        [.read .queue]
  | block {r : Request} {requests : List Request} :
      s.adding = .idle → s.requests = r :: requests → getNumericAddress r.name = none →
      Move s .queue
        { s with
          requests
          jobs := s.jobs ++ [some ⟨ampResolveData r, fun _ => .unasked, 0⟩]
          adding := .asking s.jobs.length (queried r.family) } []
  | keep {item : Entry} {next : List Entry} : s.adding = .linking item next →
      Move s .queue { s with adding := .idle, addrlist := item :: next } [.write .queue item]
  | queued {owner : ℕ} : s.adding = .asking owner [] → Move s .queue { s with adding := .idle } []
  | ask {owner : ℕ} {type : RecordType} {types : List RecordType} {job : Job} :
      s.adding = .asking owner (type :: types) → s.jobs[owner]? = some (some job) →
      Move s .queue
        { s with
          adding := .asking owner types
          jobs := s.jobs.set owner (some (job.enter type .asked)) } []
  | answer {owner : ℕ} {type : RecordType} {data : Option (List (List UInt8))} {job : Job} :
      s.jobs[owner]? = some (some job) → job.phase type = .asked → 0 < job.block.qcount →
      Move s (.answer owner type data)
        { s with
          jobs := s.jobs.set owner (some (({ job with
            block := (underLock owner type data job.block []).1 } : Job).enter type
              (.unlocked (underLock owner type data job.block []).1.qcount)))
          addrlist := (underLock owner type data job.block []).2 ++ s.addrlist }
        [.push (underLock owner type data job.block []).2]
  | resume {owner : ℕ} {type : RecordType} {job job' : Job} {addrlist : List Entry}
      {accesses : List (Access Thread Entry)} :
      s.jobs[owner]? = some (some job) →
      Resumes owner type job s.addrlist job' addrlist accesses →
      Move s (.resume owner type)
        { s with jobs := s.jobs.set owner (some job'), addrlist } accesses

inductive Trace : State → List Event → State → List (Access Thread Entry) → Prop
  | nil (s : State) : Trace s [] s []
  | cons {s s₁ s' : State} {e : Event} {events : List Event}
      {first rest : List (Access Thread Entry)} :
      step getNumericAddress s e = some s₁ → Move getNumericAddress s e s₁ first →
      Trace s₁ events s' rest → Trace s (e :: events) s' (first ++ rest)

variable {getNumericAddress} {s s' : State} {e : Event}

variable {owner : ℕ} {job : Job}

theorem resumes_of_resume {addrlist' : List Entry} (h : job.resume owner type addrlist = some (job', addrlist')) :
    ∃ accesses, Resumes owner type job addrlist job' addrlist' accesses := by
  unfold Job.resume at h
  split at h
  · rename_i qcount hphase
    split_ifs at h with hlast hok <;> cases h
    · exact ⟨_, .resolved hphase hlast hok⟩
    · exact ⟨_, .failed hphase hlast (by simpa using hok)⟩
    · exact ⟨_, .spare hphase (by omega)⟩
  · rename_i hphase
    cases h
    exact ⟨_, .created hphase⟩
  · rename_i hphase
    cases h
    exact ⟨_, .read hphase⟩
  · rename_i hphase
    cases h
    exact ⟨_, .write hphase⟩
  · cases h

theorem takeRecords_append (owner : ℕ) (type : RecordType) (name : CStr) (max : ℤ)
    (data : List (List UInt8)) (addrlist : List Entry) :
    takeRecords owner type name max data addrlist = ((takeRecords owner type name max data []).1,
        (takeRecords owner type name max data []).2 ++ addrlist) := by
  induction data generalizing max addrlist with
  | nil => rfl
  | cons record data ih =>
    simp only [takeRecords]
    split
    · rw [ih, ih _ [_]]
      simp
    · rfl

theorem underLock_append (owner : ℕ) (type : RecordType) (data : Option (List (List UInt8))) (b : Block) (addrlist : List Entry) :
    underLock owner type data b addrlist =
      ((underLock owner type data b []).1, (underLock owner type data b []).2 ++ addrlist) := by
  cases data with
  | none => rfl
  | some data => simp only [underLock, takeRecords_append owner type b.name b.max data addrlist]

theorem move_of_step (h : step getNumericAddress s e = some s') : ∃ accesses, Move getNumericAddress s e s' accesses := by
  cases e with
  | queue =>
    simp only [step, ampResolveAdd] at h
    split at h
    · rename_i hidle
      split at h
      · cases h
      · rename_i r requests hrequests
        split at h <;> cases h
        · rename_i hnumeric
          exact ⟨_, .keeper hidle hrequests hnumeric⟩
        · rename_i hnumeric
          exact ⟨_, .block hidle hrequests hnumeric⟩
    · rename_i hlinking
      cases h
      exact ⟨_, .keep hlinking⟩
    · rename_i hasking
      cases h
      exact ⟨_, .queued hasking⟩
    · rename_i hasking
      split at h
      · rename_i hjob
        cases h
        exact ⟨_, .ask hasking hjob⟩
      · cases h
  | answer owner type data =>
    simp only [step, onJob] at h
    split at h
    · rename_i job hjob
      obtain ⟨⟨job', addrlist'⟩, hanswer, rfl⟩ := map_eq_some_iff.mp h
      simp only [Job.answer] at hanswer
      split at hanswer
      · rename_i hphase
        split_ifs at hanswer with hqcount
        rw [underLock_append] at hanswer
        cases hanswer
        exact ⟨_, .answer hjob hphase hqcount⟩
      · cases hanswer
    · cases h
  | resume owner type =>
    simp only [step, onJob] at h
    split at h
    · rename_i job hjob
      obtain ⟨⟨job', addrlist'⟩, hresume, rfl⟩ := map_eq_some_iff.mp h
      obtain ⟨accesses, hresumes⟩ := resumes_of_resume hresume
      exact ⟨accesses, .resume hjob hresumes⟩
    · cases h

theorem trace_of_run (h : run getNumericAddress s events = some s') :
    ∃ accesses, Trace getNumericAddress s events s' accesses := by
  induction events generalizing s with
  | nil =>
    cases h
    exact ⟨[], .nil _⟩
  | cons e events ih =>
    rw [run, foldlM_cons] at h
    obtain ⟨s₁, hstep, hrest⟩ := bind_eq_some_iff.mp h
    obtain ⟨first, hmove⟩ := move_of_step hstep
    obtain ⟨rest, htrace⟩ := ih hrest
    exact ⟨first ++ rest, .cons hstep hmove htrace⟩

structure Mirrors (s : State) (shared : Shared Thread Entry) : Prop where
  head : shared.head = s.addrlist
  seen : ∀ e, ∀ next ∈ s.next e, shared.seen e.thread = next

theorem Mirrors.start (requests : List Request) : Mirrors (start requests) Shared.empty where
  head := rfl
  seen := by
    intro e next hnext
    cases e <;> cases hnext

theorem getElem?_set_job (hjob : s.jobs[owner]? = some (some job)) (i : ℕ) :
    (s.jobs.set owner (some job'))[i]? = if i = owner then some (some job') else s.jobs[i]? := by
  obtain ⟨hlt, -⟩ := List.getElem?_eq_some_iff.mp hjob
  rw [getElem?_set]
  by_cases h : owner = i
  · rw [if_pos h, if_pos h.symm, if_pos hlt]
  · rw [if_neg h, if_neg (Ne.symm h)]

theorem next_set_job {phase : Phase} (hjob : s.jobs[owner]? = some (some job))
    (hphase : job'.phase = update job.phase type phase) (addrlist : List Entry) (e : Event)
    :
    State.next { s with jobs := s.jobs.set owner (some job'), addrlist } e =
      if e = .resume owner type then phase.next else s.next e := by
  cases e with
  | queue => rfl
  | answer => rfl
  | resume i t =>
    simp only [State.next, getElem?_set_job hjob, Event.resume.injEq]
    by_cases hi : i = owner
    · subst hi
      rw [if_pos rfl, hjob]
      change (job'.phase t).next = if i = i ∧ t = type then phase.next else (job.phase t).next
      rw [hphase]
      by_cases ht : t = type
      · subst ht
        rw [if_pos ⟨rfl, rfl⟩, update_self]
      · rw [if_neg fun h => ht h.2, update_of_ne ht]
    · rw [if_neg hi, if_neg fun h => hi h.1]

variable {shared : Shared Thread Entry}

theorem Mirrors.quiet (h : Mirrors s shared) (haddr : s'.addrlist = s.addrlist)
    (hnext : ∀ e, ∀ next ∈ s'.next e, next ∈ s.next e) : Mirrors s' shared where
  head := h.head.trans haddr.symm
  seen e next hmem := h.seen e next (hnext e next hmem)

theorem Mirrors.push (h : Mirrors s shared) {items : List Entry} (haddr : s'.addrlist = items ++ s.addrlist)
    (hnext : ∀ e, ∀ next ∈ s'.next e, next ∈ s.next e) :
    Mirrors s' (SharedList.run shared [.push items]) where
  head := by
    rw [haddr, ← h.head]
    rfl
  seen e next hmem := h.seen e next (hnext e next hmem)

theorem Mirrors.read (h : Mirrors s shared) {thread : Thread} (haddr : s'.addrlist = s.addrlist) (hnext : ∀ e, ∀ next ∈ s'.next e,
      if e.thread = thread then next = s.addrlist else next ∈ s.next e) :
    Mirrors s' (SharedList.run shared [.read thread]) where
  head := h.head.trans haddr.symm
  seen e next hmem := by
    have hcase := hnext e next hmem
    change update shared.seen thread shared.head e.thread = next
    split_ifs at hcase with hthread
    · rw [hthread, update_self, hcase, h.head]
    · rw [update_of_ne hthread]
      exact h.seen e next hcase

theorem Mirrors.write (h : Mirrors s shared) {item : Entry} {next : List Entry}
    (hwrite : s.next e = some next) (haddr : s'.addrlist = item :: next)
    (hnext : ∀ e, ∀ next ∈ s'.next e, next ∈ s.next e) :
    Mirrors s' (SharedList.run shared [.write e.thread item]) ∧
      (SharedList.Serial shared [.write e.thread item] ↔ Current s e) := by
  have hseen : shared.seen e.thread = next := h.seen e next hwrite
  refine ⟨⟨?_, fun e next hmem => h.seen e next (hnext e next hmem)⟩, ?_⟩
  · change item :: shared.seen e.thread = s'.addrlist
    rw [hseen, haddr]
  · simp only [SharedList.Serial, Access.Current, and_true, hseen, h.head, Current, hwrite, mem_some_iff, forall_eq']

theorem current_of_next {s : State} {e : Event} (h : s.next e = none) : Current s e := by
  intro next hnext
  rw [h] at hnext
  cases hnext

theorem next_resume (hjob : s.jobs[owner]? = some (some job)) : s.next (.resume owner type) = (job.phase type).next := by
  rw [State.next, hjob]

theorem next_of_set_job {phase : Phase} (hjob : s.jobs[owner]? = some (some job))
    (hphase : job'.phase = update job.phase type phase) (hnone : phase.next = none)
    (addrlist : List Entry) (e : Event) :
    ∀ next ∈ State.next { s with jobs := s.jobs.set owner (some job'), addrlist } e,
      next ∈ s.next e := by
  intro next hnext
  rw [next_set_job hjob hphase] at hnext
  split_ifs at hnext
  · rw [hnone] at hnext
    cases hnext
  · exact hnext

variable {accesses : List (Access Thread Entry)}

theorem Mirrors.resumes (h : Mirrors s shared) (hjob : s.jobs[owner]? = some (some job))
    (hresumes : Resumes owner type job s.addrlist job' addrlist accesses) :
    Mirrors { s with jobs := s.jobs.set owner (some job'), addrlist } (SharedList.run shared accesses) ∧
      (SharedList.Serial shared accesses ↔ Current s (.resume owner type)) := by
  have hcurrent (hphase : (job.phase type).next = none) : Current s (.resume owner type) :=
    current_of_next ((next_resume hjob).trans hphase)
  cases hresumes with
  | spare hphase _ | resolved hphase _ _ | failed hphase _ _ | created hphase =>
    exact ⟨h.quiet rfl (next_of_set_job hjob rfl rfl _), iff_of_true trivial (hcurrent (by rw [hphase]; rfl))⟩
  | read hphase =>
    refine ⟨h.read rfl fun e next hnext => ?_, iff_of_true ⟨trivial, trivial⟩ (hcurrent (by rw [hphase]; rfl))⟩
    rw [next_set_job hjob rfl] at hnext
    split_ifs at hnext with he
    · rw [he, if_pos (show (Event.resume owner type).thread = .callback owner type from rfl)]
      exact (some.inj hnext).symm
    · rw [if_neg]
      · exact hnext
      · rintro hthread
        cases e with
        | queue => cases hthread
        | answer => cases hnext
        | resume => cases hthread; exact he rfl
  | write hphase =>
    refine h.write (e := .resume owner type) ?_ rfl (next_of_set_job hjob rfl rfl _)
    rw [next_resume hjob, hphase]
    rfl

theorem next_of_add {o : Option Job} (ho : ∀ job ∈ o, ∀ type, (job.phase type).next = none)
    (requests : List Request) (adding : Adding) {e : Event} {next : List Entry}
    (hnext : next ∈ State.next { s with requests, jobs := s.jobs ++ [o], adding } e) :
    if e = .queue then next ∈ adding.next else next ∈ s.next e := by
  cases e with
  | queue => exact hnext
  | answer => cases hnext
  | resume owner type =>
    simp only [State.next] at hnext
    split at hnext
    · rename_i job hjob
      rcases AddressLimit.getElem?_concat_eq_some hjob with ⟨-, hold⟩ | ⟨-, rfl⟩
      · rw [if_neg (by simp), next_resume hold]
        exact hnext
      · rw [ho job rfl] at hnext
        cases hnext
    · cases hnext

theorem Mirrors.move (h : Mirrors s shared) (hmove : Move getNumericAddress s e s' accesses) :
    Mirrors s' (SharedList.run shared accesses) ∧ (SharedList.Serial shared accesses ↔ Current s e) := by
  have hcurrent (hnext : s.adding.next = none) : Current s .queue := current_of_next hnext
  cases hmove with
  | keeper hidle _ _ =>
    refine ⟨h.read rfl fun e next hnext => ?_, iff_of_true ⟨trivial, trivial⟩ (hcurrent (by rw [hidle]; rfl))⟩
    have hcase := next_of_add (by simp) _ _ hnext
    cases e with
    | queue => exact (some.inj hcase).symm
    | answer => cases hnext
    | resume => exact hcase
  | block hidle _ _ =>
    refine ⟨h.quiet rfl fun e next hnext => ?_, iff_of_true trivial (hcurrent (by rw [hidle]; rfl))⟩
    have hcase := next_of_add (by simp [Phase.next]) _ _ hnext
    cases e with
    | queue => cases hcase
    | answer => cases hnext
    | resume => exact hcase
  | keep hlinking =>
    refine h.write (e := .queue) (by rw [State.next, hlinking]; rfl) rfl fun e next hnext => ?_
    cases e with
    | queue => cases hnext
    | answer => cases hnext
    | resume => exact hnext
  | queued hasking =>
    refine ⟨h.quiet rfl fun e next hnext => ?_, iff_of_true trivial (hcurrent (by rw [hasking]; rfl))⟩
    cases e with
    | queue => cases hnext
    | answer => cases hnext
    | resume => exact hnext
  | ask hasking hjob =>
    refine ⟨h.quiet rfl fun e next hnext => ?_, iff_of_true trivial (hcurrent (by rw [hasking]; rfl))⟩
    cases e with
    | queue => cases hnext
    | answer => cases hnext
    | resume => exact next_of_set_job hjob rfl rfl s.addrlist _ next hnext
  | answer hjob _ _ =>
    exact ⟨h.push rfl (next_of_set_job hjob rfl rfl _), iff_of_true ⟨trivial, trivial⟩ (current_of_next rfl)⟩
  | resume hjob hresumes => exact h.resumes hjob hresumes

theorem undisturbed_cons (hstep : step getNumericAddress s e = some s') : Undisturbed getNumericAddress s (e :: events) ↔
      Current s e ∧ Undisturbed getNumericAddress s' events := by
  rw [Undisturbed, hstep]
  simp only [mem_some_iff, forall_eq']

theorem Mirrors.trace (h : Mirrors s shared) (htrace : Trace getNumericAddress s events s' accesses) :
    Mirrors s' (SharedList.run shared accesses) ∧
      (SharedList.Serial shared accesses ↔ Undisturbed getNumericAddress s events) := by
  induction htrace generalizing shared with
  | nil => exact ⟨h, Iff.rfl⟩
  | cons hstep hmove _ ih =>
    obtain ⟨hfirst, hserial⟩ := h.move hmove
    obtain ⟨hlast, hrest⟩ := ih hfirst
    rw [SharedList.run_append, SharedList.serial_append, undisturbed_cons hstep, hserial, hrest]
    exact ⟨hlast, Iff.rfl⟩

theorem trace_addrlist {requests : List Request} (htrace : Trace getNumericAddress (start requests) events s accesses) :
    (s.addrlist = SharedList.written accesses ∨ s.addrlist.length < (SharedList.written accesses).length) ∧
      (s.addrlist = SharedList.written accesses ↔ Undisturbed getNumericAddress (start requests) events) := by
  obtain ⟨hmirrors, hserial⟩ := (Mirrors.start requests).trace htrace
  have hlog := SharedList.Logged.empty.run accesses
  have hiff := SharedList.Logged.empty.run_head_iff accesses
  rw [append_nil] at hlog hiff
  rw [← hmirrors.head, ← hserial]
  exact ⟨hlog.head, hiff.trans (and_iff_right rfl)⟩

end Trace

section Uninterrupted

def Job.resumes (owner : ℕ) (type : RecordType) : ℕ → Job × List Entry → Option (Job × List Entry)
  | 0, r => some r
  | n + 1, r => (r.1.resume owner type r.2).bind (Job.resumes owner type n)

variable {owner : ℕ} {job : Job}

theorem resumes_creating (owner : ℕ) {items : List Entry} (h : job.phase type = .creating items) (addrlist : List Entry) :
    ∃ n job', Job.resumes owner type n (job, addrlist) = some (job', items.reverse ++ addrlist) ∧
      job'.block = job.block ∧ job'.phase type = .finished := by
  induction items generalizing job addrlist with
  | nil =>
    refine ⟨1, job.release type, ?_, rfl, job.enter_phase_self type .finished⟩
    simp [Job.resumes, Job.resume, h]
  | cons item items ih =>
    have hnext : ((job.enter type (.linking item addrlist items)).enter type (.creating items)).phase type =
      .creating items := Job.enter_phase_self ..
    obtain ⟨n, job', hrun, hblock, hphase⟩ := ih hnext (item :: addrlist)
    refine ⟨n + 2, job', ?_, hblock, hphase⟩
    simp [Job.resumes, Job.resume, h, hrun]

/-- A callback that no other thread interrupts is the one event that it is in `AddressLimit`. -/
theorem answer_resumes (data : Option (List (List UInt8))) (hphase : job.phase type = .asked)
    (hqcount : 0 < job.block.qcount) (addrlist : List Entry) :
    ∃ n job', (job.answer owner type data addrlist).bind (Job.resumes owner type n) =
        some (job', (AddressLimit.ampResolveCallback owner type data job.block addrlist).2) ∧
      job'.block = (AddressLimit.ampResolveCallback owner type data job.block addrlist).1 ∧
      job'.phase type = .finished := by
  obtain ⟨b, entries, hlock⟩ : ∃ b entries, underLock owner type data job.block addrlist = (b, entries) := ⟨_, _, rfl⟩
  have hanswer : job.answer owner type data addrlist =
      some (({ job with block := b } : Job).enter type (.unlocked b.qcount), entries) := by
    simp only [Job.answer, hphase, if_pos hqcount, hlock]
  simp only [hanswer, bind_some, AddressLimit.ampResolveCallback, hlock]
  by_cases hlast : b.qcount ≤ 0
  · cases hok : b.ok with
    | true =>
      refine ⟨1, (({ job with block := b } : Job).enter type (.unlocked b.qcount)).release type, ?_, rfl, Job.enter_phase_self ..⟩
      simp [Job.resumes, Job.resume, Job.enter, hlast, hok]
    | false =>
      have hcreating : ((({ job with block := b } : Job).enter type (.unlocked b.qcount)).enter type
        (.creating (dummyEntries owner b).reverse)).phase type = .creating (dummyEntries owner b).reverse :=
        Job.enter_phase_self ..
      obtain ⟨n, job', hrun, hblock, hfinished⟩ := resumes_creating owner hcreating entries
      refine ⟨n + 1, job', ?_, hblock, hfinished⟩
      rw [reverse_reverse] at hrun
      simp only [if_pos (And.intro hlast trivial), ← hrun]
      simp [Job.resumes, Job.resume, Job.enter, hlast, hok]
  · refine ⟨1, (({ job with block := b } : Job).enter type (.unlocked b.qcount)).enter type .finished, ?_, rfl,
      Job.enter_phase_self ..⟩
    simp [Job.resumes, Job.resume, Job.enter, hlast]

/-- The blocks and the list, as `AddressLimit` has them. -/
def State.worker (s : State) : AddressLimit.Worker := ⟨[], s.jobs.map (Option.map Job.block), [], s.addrlist⟩

variable {s : State}

theorem run_succ {s' : State} (hstep : step getNumericAddress s .queue = some s') (n : ℕ) :
    run getNumericAddress s (replicate (n + 1) .queue) = run getNumericAddress s' (replicate n .queue) := by
  rw [replicate_succ, run, foldlM_cons, hstep]
  rfl

theorem run_asking {types : List RecordType} (hadding : s.adding = .asking owner types)
    (hjob : s.jobs[owner]? = some (some job)) :
    ∃ n s', run getNumericAddress s (replicate n .queue) = some s' ∧ s'.adding = .idle ∧
      s'.requests = s.requests ∧ s'.worker = s.worker := by
  induction types generalizing s job with
  | nil => exact ⟨1, { s with adding := .idle }, by simp [run, step, ampResolveAdd, hadding], rfl, rfl, rfl⟩
  | cons type types ih =>
    obtain ⟨asked, hasked⟩ : ∃ asked : State, asked = { s with
      adding := .asking owner types
      jobs := s.jobs.set owner (some (job.enter type .asked)) } := ⟨_, rfl⟩
    have hstep : step getNumericAddress s .queue = some asked := by
      simp only [step, ampResolveAdd, hadding, hjob, hasked]
    obtain ⟨n, s', hrun, hidle, hrequests, hworker⟩ := ih (by rw [hasked])
      (show asked.jobs[owner]? = some (some (job.enter type .asked)) by rw [hasked, getElem?_set_job hjob, if_pos rfl])
    refine ⟨n + 1, s', (run_succ getNumericAddress hstep n).trans hrun, hidle, by rw [hrequests, hasked], hworker.trans ?_⟩
    -- the questions leave the block alone
    have hblock : (s.jobs.map (Option.map Job.block))[owner]? = some (some (job.enter type .asked).block) := by
      rw [getElem?_map, hjob]
      rfl
    obtain ⟨hlt, hget⟩ := List.getElem?_eq_some_iff.mp hblock
    rw [hasked, State.worker, State.worker, map_set, map_some, ← hget, set_getElem_self hlt]

/-- A name that is queued without interruption, likewise. -/
theorem run_queue {q : ResolverSocket.Query} {requests : List Request} (hadding : s.adding = .idle)
    (hrequests : s.requests = ⟨q.name, q.family.toNat, q.count.toNat⟩ :: requests) :
    ∃ n s', run getNumericAddress s (replicate n .queue) = some s' ∧ s'.adding = .idle ∧
      s'.requests = requests ∧ s'.worker.blocks = (AddressLimit.ampResolveAdd getNumericAddress s.worker q).blocks ∧
      s'.worker.addrlist = (AddressLimit.ampResolveAdd getNumericAddress s.worker q).addrlist := by
  rw [AddressLimit.ampResolveAdd]
  cases hnumeric : getNumericAddress q.name with
  | some address =>
    refine ⟨2, ⟨requests, .idle, s.jobs ++ [none], ⟨s.jobs.length, address.1, some address.2, q.name⟩ :: s.addrlist⟩,
      ?_, rfl, rfl, ?_, ?_⟩
    · simp [run, replicate, step, ampResolveAdd, hadding, hrequests, hnumeric]
    · simp [State.worker]
    · simp [State.worker]
  | none =>
    obtain ⟨asking, hasking⟩ : ∃ asking : State, asking = { s with
      requests
      jobs := s.jobs ++ [some ⟨ampResolveData ⟨q.name, q.family.toNat, q.count.toNat⟩, fun _ => .unasked, 0⟩]
      adding := .asking s.jobs.length (queried q.family.toNat) } := ⟨_, rfl⟩
    have hstep : step getNumericAddress s .queue = some asking := by
      simp [step, ampResolveAdd, hadding, hrequests, hnumeric, hasking]
    obtain ⟨n, s', hrun, hidle, hrequests', hworker⟩ := run_asking getNumericAddress (by rw [hasking])
      (show asking.jobs[s.jobs.length]? = some (some _) by rw [hasking]; exact getElem?_concat_length)
    have hfamily : UInt8.ofInt q.family.toNat = q.family := by
      have hlt := q.family.toNat_lt
      have hmod : ((q.family.toNat : ℤ) % 2 ^ 8).toNat = q.family.toNat := by omega
      rw [UInt8.ofInt, hmod, UInt8.ofNat_toNat]
    refine ⟨n + 1, s', (run_succ getNumericAddress hstep n).trans hrun, hidle, by rw [hrequests', hasking], ?_, ?_⟩
    · rw [hworker]
      simp [hasking, State.worker, ampResolveData, hfamily, UInt8.lt_iff_toNat_lt]
    · rw [hworker, hasking]
      rfl

end Uninterrupted

end Amplet.ResolverThreads
