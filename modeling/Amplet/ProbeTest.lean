import Amplet.Failing
import Amplet.InFlight
import Amplet.ScheduleTime
import Amplet.SocketAddress

/-!
# Tests that send one packet to each destination

What `src/tests/icmp/icmp.c` and `src/tests/dns/dns.c` have in common: the globals, the
end of `send_packet`, and the check at the end of the callbacks for received packets.
Behind the array of results is memory that is read and written like it. A timer is set
or not, and `stopped` says that the event loop was told to end.
-/

namespace Amplet.ProbeTest
open Function Option Failing InFlight ScheduleTime SocketAddress

/-- An access outside of a packet, a name that `decode` does not return from, a failed assertion,
a destination that there is not. -/
inductive Fault
  | memory
  | name
  | assertion
  | entry (index : ℕ)
deriving DecidableEq, Repr

structure Sockets where
  socket : ℤ
  socket6 : ℤ

def Sockets.select (s : Sockets) : Option SockAddr → Option ℤ
  | some (.inet _) => if s.socket < 0 then none else some s.socket
  | some (.inet6 _) => if s.socket6 < 0 then none else some s.socket6
  | _ => none

structure Globals (Opt Info : Type) (count : ℕ) where
  options : Opt
  sockets : Sockets
  dests : Fin count → Option SockAddr
  info : Fin count → Info
  behind : ℕ → Info
  ident : UInt16
  index : ℕ
  outstanding : ℤ
  nextpackettimer : Bool
  losstimer : Bool
  stopped : Bool

def recordedDelay (now sent : TimeVal) : ℕ :=
  if diffTvUs now sent > 0 then (diffTvUs now sent % 2 ^ 32).toNat else 0

structure Delivery where
  whole : Bool
  time : TimeVal

section Operations

variable {Opt Info : Type} {count : ℕ}

def entryAt (count index : ℕ) : Except Fault (Fin count) :=
  if h : index < count then .ok ⟨index, h⟩ else .error (.entry index)

theorem entryAt_eq_ok {index : ℕ} {i : Fin count} (h : entryAt count index = .ok i) : i.val = index := by
  rw [entryAt] at h
  split_ifs at h
  cases h
  rfl

def Globals.setInfo (g : Globals Opt Info count) (i : Fin count) (x : Info) :
    Globals Opt Info count :=
  { g with info := update g.info i x }

def Globals.entry (g : Globals Opt Info count) (index : ℕ) : Info :=
  if h : index < count then g.info ⟨index, h⟩ else g.behind index

def Globals.setEntry (g : Globals Opt Info count) (index : ℕ) (x : Info) : Globals Opt Info count :=
  if h : index < count then g.setInfo ⟨index, h⟩ x
  else { g with behind := update g.behind index x }

@[simp] theorem entry_val (g : Globals Opt Info count) (i : Fin count) : g.entry i = g.info i :=
  dif_pos i.isLt

@[simp] theorem setEntry_val (g : Globals Opt Info count) (i : Fin count) (x : Info) :
    g.setEntry i x = g.setInfo i x := dif_pos i.isLt

theorem setEntry_info_of_ne (g : Globals Opt Info count) {index : ℕ} (x : Info) {i : Fin count}
    (h : i.val ≠ index) : (g.setEntry index x).info i = g.info i := by
  rw [Globals.setEntry]
  split_ifs with hindex
  · exact update_of_ne (fun hi => h (congrArg Fin.val hi)) _ _
  · rfl

theorem setEntry_of_le (g : Globals Opt Info count) {index : ℕ} (h : count ≤ index) (x : Info) :
    g.setEntry index x = { g with behind := update g.behind index x } := dif_neg (not_lt.mpr h)

def Globals.next (g : Globals Opt Info count) : Globals Opt Info count :=
  if g.index + 1 = count then
    if g.outstanding = 0 then
      { g with index := g.index + 1, nextpackettimer := false, stopped := true }
    else { g with index := g.index + 1, nextpackettimer := false, losstimer := true }
  else { g with index := g.index + 1, nextpackettimer := true }

def Globals.checkDone (g : Globals Opt Info count) : Globals Opt Info count :=
  if g.outstanding = 0 ∧ g.index = count then { g with stopped := true } else g

@[simp] theorem next_info (g : Globals Opt Info count) : g.next.info = g.info := by
  rw [Globals.next]
  split_ifs <;> rfl

@[simp] theorem next_outstanding (g : Globals Opt Info count) : g.next.outstanding = g.outstanding := by
  rw [Globals.next]
  split_ifs <;> rfl

@[simp] theorem next_index (g : Globals Opt Info count) : g.next.index = g.index + 1 := by
  rw [Globals.next]
  split_ifs <;> rfl

@[simp] theorem checkDone_info (g : Globals Opt Info count) : g.checkDone.info = g.info := by
  rw [Globals.checkDone]
  split_ifs <;> rfl

@[simp] theorem checkDone_outstanding (g : Globals Opt Info count) : g.checkDone.outstanding = g.outstanding := by
  rw [Globals.checkDone]
  split_ifs <;> rfl

@[simp] theorem checkDone_index (g : Globals Opt Info count) : g.checkDone.index = g.index := by
  rw [Globals.checkDone]
  split_ifs <;> rfl

end Operations

structure Progress (Opt Info : Type) (count : ℕ) where
  globals : Globals Opt Info count
  sent : Finset (Fin count)

section Counting

variable {Opt Info : Type} {count : ℕ} (reply : Info → Bool)

def Progress.requests (p : Progress Opt Info count) : Requests (Fin count) :=
  ⟨{i ∈ p.sent | reply (p.globals.info i) = false}, p.globals.outstanding⟩

variable {reply} {g g' : Globals Opt Info count} {sent : Finset (Fin count)} {i : Fin count} {x : Info}

theorem mem_waiting {p : Progress Opt Info count} {i : Fin count} :
    i ∈ (p.requests reply).waiting ↔ i ∈ p.sent ∧ reply (p.globals.info i) = false :=
  Finset.mem_filter

section

variable (hinfo : g'.info = update g.info i x)
include hinfo

theorem requests_sent (houtstanding : g'.outstanding = g.outstanding + 1) (hi : i ∉ sent) (hx : reply x = false) :
    Progress.requests reply ⟨g', insert i sent⟩ = (Change.sent i).apply (Progress.requests reply ⟨g, sent⟩) := by
  simp only [Progress.requests, Change.apply, houtstanding]
  congr 1
  ext j
  simp only [Finset.mem_filter, Finset.mem_insert, hinfo]
  by_cases hj : j = i
  · subst hj
    simp [hx]
  · simp [hj]

theorem requests_kept (houtstanding : g'.outstanding = g.outstanding) (hx : i ∈ sent → reply x = reply (g.info i)) :
    Progress.requests reply ⟨g', sent⟩ = Progress.requests reply ⟨g, sent⟩ := by
  simp only [Progress.requests, houtstanding]
  congr 1
  ext j
  simp only [Finset.mem_filter, hinfo]
  by_cases hj : j = i
  · subst hj
    simp +contextual [hx]
  · simp [hj]

theorem waiting_marked (hx : reply x = true) : (Progress.requests reply ⟨g', sent⟩).waiting =
      (Progress.requests reply ⟨g, sent⟩).waiting.erase i := by
  ext j
  simp only [Progress.requests, Finset.mem_filter, Finset.mem_erase, hinfo]
  by_cases hj : j = i
  · subst hj
    simp [hx]
  · simp [hj]

theorem requests_answered (houtstanding : g'.outstanding = g.outstanding - 1) (hx : reply x = true) :
    Progress.requests reply ⟨g', sent⟩ = (Change.answered i).apply (Progress.requests reply ⟨g, sent⟩) := by
  rw [Change.apply, ← waiting_marked hinfo hx]
  simp only [Progress.requests, houtstanding]

theorem requests_released (houtstanding : g'.outstanding = g.outstanding) (hx : reply x = true) :
    Progress.requests reply ⟨g', sent⟩ = (Change.released i).apply (Progress.requests reply ⟨g, sent⟩) := by
  rw [Change.apply, ← waiting_marked hinfo hx]
  simp only [Progress.requests, houtstanding]

end

end Counting

section Runs

variable {Opt Info Sending Received : Type} {count : ℕ}

inductive Event (Sending Received : Type)
  | send (r : Sending)
  | receive (received : Option Received)

structure Callbacks (Opt Info Sending Received : Type) (count : ℕ) where
  sendPacket : Sending → Globals Opt Info count → Except Fault (Globals Opt Info count × Option (Fin count))
  processReceived : Received → Globals Opt Info count → Except Fault (Globals Opt Info count)

variable (t : Callbacks Opt Info Sending Received count)

def callback (p : Progress Opt Info count) : Event Sending Received → Except Fault (Progress Opt Info count)
  | .send r => do
    let (g, sent) ← t.sendPacket r p.globals
    .ok ⟨g, sent.elim p.sent (insert · p.sent)⟩
  | .receive none => .ok { p with globals := p.globals.checkDone }
  | .receive (some received) => do
    let g ← t.processReceived received p.globals
    .ok { p with globals := g.checkDone }

def Event.due (p : Progress Opt Info count) : Event Sending Received → Bool
  | .send _ => p.globals.nextpackettimer
  | .receive _ => true

/-- The event loop calls back while it is not stopped, for sending if the timer is set. -/
def Step (p : Progress Opt Info count) (event : Event Sending Received) (p' : Progress Opt Info count) : Prop :=
  p.globals.stopped = false ∧ (∀ r, event = .send r → p.globals.nextpackettimer = true) ∧ callback t p event = .ok p'

structure Started (p : Progress Opt Info count) : Prop where
  sent : p.sent = ∅
  index : p.globals.index = 0
  outstanding : p.globals.outstanding = 0
  nextpackettimer : p.globals.nextpackettimer = true
  losstimer : p.globals.losstimer = false
  stopped : p.globals.stopped = false

/-- Packets were sent to destinations before the next one, and the test is stopped when all
are done and nothing is outstanding. -/
structure Orderly (p : Progress Opt Info count) : Prop where
  sent : ∀ i ∈ p.sent, i.val < p.globals.index
  done : p.globals.stopped = true → p.globals.index = count ∧ p.globals.outstanding = 0
  running : 0 < count → p.globals.stopped = false → ¬ (p.globals.index = count ∧ p.globals.outstanding = 0)

def run (p : Progress Opt Info count) : List (Event Sending Received) → Option (Progress Opt Info count)
  | [] => some p
  | event :: events =>
    match callback t p event with
    | .error _ => none
    | .ok p' => if p.globals.stopped = false ∧ event.due p = true then run p' events else none

def holdsEach (Q : Progress Opt Info count → Event Sending Received → Prop)
    [∀ p event, Decidable (Q p event)] (p : Progress Opt Info count) : List (Event Sending Received) → Bool
  | [] => true
  | event :: events =>
    match callback t p event with
    | .error _ => true
    | .ok p' => decide (Q p event) && holdsEach Q p' events

variable {p p' : Progress Opt Info count} {g : Globals Opt Info count} {sent : Finset (Fin count)}

theorem always_run {P : Progress Opt Info count → Prop} {events : List (Event Sending Received)}
    (h : Always (Step t) P p events) (hrun : run t p events = some p') : P p' := by
  induction events generalizing p with
  | nil => exact some.inj hrun ▸ h
  | cons event events ih =>
    rw [run] at hrun
    split at hrun
    · cases hrun
    · next p₁ hcallback =>
      split_ifs at hrun with hcalled
      have hstep : Step t p event p₁ :=
        ⟨hcalled.1, fun r hr => by have := hcalled.2; rwa [hr] at this, hcallback⟩
      exact ih (h.2 p₁ hstep) hrun

theorem each_of_holdsEach {Q : Progress Opt Info count → Event Sending Received → Prop}
    [∀ p event, Decidable (Q p event)] {events : List (Event Sending Received)}
    (h : holdsEach t Q p events = true) : Each (Step t) Q p events := by
  induction events generalizing p with
  | nil => trivial
  | cons event events ih =>
    rintro p' ⟨-, -, hcallback⟩
    rw [holdsEach, hcallback, Bool.and_eq_true, decide_eq_true_iff] at h
    exact ⟨h.1, ih h.2⟩

theorem Started.orderly (h : Started p) : Orderly p where
  sent := by simp [h.sent]
  done := by simp [h.stopped]
  running := fun hcount _ hdone => hcount.ne (h.index.symm.trans hdone.1)

theorem Orderly.next (hstopped : g.stopped = false) (hsent : ∀ i ∈ sent, i.val < g.index + 1) : Orderly ⟨g.next, sent⟩ := by
  refine ⟨by simpa using hsent, ?_, ?_⟩
  · rw [Globals.next]
    split_ifs with hlast hzero
    · exact fun _ => ⟨hlast, hzero⟩
    · simp [hstopped]
    · simp [hstopped]
  · rw [Globals.next]
    split_ifs with hlast hzero
    · simp
    · exact fun _ _ hdone => hzero hdone.2
    · exact fun _ _ hdone => hlast hdone.1

theorem Orderly.checkDone (hstopped : g.stopped = false) (hsent : ∀ i ∈ sent, i.val < g.index) : Orderly ⟨g.checkDone, sent⟩ := by
  refine ⟨by simpa using hsent, ?_, ?_⟩
  · rw [Globals.checkDone]
    split_ifs with hdone
    · exact fun _ => hdone.symm
    · simp [hstopped]
  · rw [Globals.checkDone]
    split_ifs with hdone
    · simp
    · exact fun _ _ h => hdone h.symm

end Runs

section Spec

variable {Opt Info : Type} {count : ℕ} (reply : Info → Bool) {Sending Received : Type}

def Sends (g g' : Globals Opt Info count) (sent : Option (Fin count)) : Prop :=
  ∃ (i : Fin count) (x : Info), i.val = g.index ∧ ((sent = some i ∧ reply x = false ∧
        g' = Globals.next { g.setInfo i x with outstanding := g.outstanding + 1 }) ∨
      sent = none ∧ g' = (g.setInfo i x).next)

structure Takes (c : Change (Fin count)) (g g' : Globals Opt Info count) : Prop where
  index : g'.index = g.index
  stopped : g'.stopped = g.stopped
  requests : ∀ sent, Progress.requests reply ⟨g', sent⟩ = c.apply (Progress.requests reply ⟨g, sent⟩)

variable {reply} {p : Progress Opt Info count} {g g' : Globals Opt Info count} {c : Change (Fin count)}
  {sent : Option (Fin count)}

theorem Sends.index (h : Sends reply g g' sent) : g'.index = g.index + 1 := by
  obtain ⟨i, x, -, ⟨-, -, rfl⟩ | ⟨-, rfl⟩⟩ := h
  · exact next_index _
  · exact next_index _

theorem Sends.info_of_lt (h : Sends reply g g' sent) {j : Fin count} (hj : g.index < j) : g'.info j = g.info j := by
  obtain ⟨i, x, hi, ⟨-, -, rfl⟩ | ⟨-, rfl⟩⟩ := h <;>
  · rw [next_info]
    exact update_of_ne (fun hij => by omega) _ _

theorem Sends.orderly (h : Sends reply p.globals g' sent) (hp : Orderly p)
    (hstopped : p.globals.stopped = false) : Orderly ⟨g', sent.elim p.sent (insert · p.sent)⟩ := by
  obtain ⟨i, x, hi, ⟨rfl, -, rfl⟩ | ⟨rfl, rfl⟩⟩ := h
  · refine Orderly.next hstopped fun j hj => ?_
    rcases Finset.mem_insert.mp hj with rfl | hj
    · exact hi.trans_lt (Nat.lt_succ_self _)
    · exact Nat.lt_succ_of_lt (hp.sent j hj)
  · exact Orderly.next hstopped fun j hj => Nat.lt_succ_of_lt (hp.sent j hj)

theorem Sends.accurate (h : Sends reply p.globals g' sent) (hp : Orderly p) (haccurate : (p.requests reply).Accurate) :
    (Progress.requests reply ⟨g', sent.elim p.sent (insert · p.sent)⟩).Accurate := by
  obtain ⟨i, x, hi, hcase⟩ := h
  have hunsent : i ∉ p.sent := fun hmem => (hp.sent i hmem).ne hi
  rcases hcase with ⟨rfl, hx, rfl⟩ | ⟨rfl, rfl⟩
  · have hinfo := next_info { p.globals.setInfo i x with outstanding := p.globals.outstanding + 1 }
    rw [elim_some, requests_sent hinfo (next_outstanding _) hunsent hx, Change.accurate_apply_iff haccurate]
    exact fun hwaiting => hunsent (mem_waiting.mp hwaiting).1
  · have hinfo := next_info (p.globals.setInfo i x)
    rw [elim_none, requests_kept (g := p.globals) hinfo (next_outstanding _) fun hmem => absurd hmem hunsent]
    exact haccurate

theorem Takes.orderly (h : Takes reply c p.globals g') (hp : Orderly p)
    (hstopped : p.globals.stopped = false) : Orderly ⟨g'.checkDone, p.sent⟩ :=
  Orderly.checkDone (h.stopped.trans hstopped) fun i hi => h.index ▸ hp.sent i hi

theorem Takes.accurate_iff (h : Takes reply c p.globals g') (haccurate : (p.requests reply).Accurate) :
    (Progress.requests reply ⟨g'.checkDone, p.sent⟩).Accurate ↔ c.Fits (p.requests reply) := by
  rw [← Change.accurate_apply_iff haccurate, ← h.requests p.sent]
  simp only [Progress.requests, checkDone_info, checkDone_outstanding]

variable (reply) in
theorem takes_idle (g : Globals Opt Info count) : Takes reply .idle g g :=
  ⟨rfl, rfl, fun _ => rfl⟩

theorem takes_kept {i : Fin count} {x : Info} (hx : reply x = reply (g.info i)) : Takes reply .idle g (g.setInfo i x) :=
  ⟨rfl, rfl, fun _ => requests_kept rfl rfl fun _ => hx⟩

theorem takes_answered {i : Fin count} {x : Info} (hx : reply x = true) :
    Takes reply (.answered i) g { g.setInfo i x with outstanding := g.outstanding - 1 } :=
  ⟨rfl, rfl, fun _ => requests_answered rfl rfl hx⟩

theorem takes_released {i : Fin count} {x : Info} (hx : reply x = true) : Takes reply (.released i) g (g.setInfo i x) :=
  ⟨rfl, rfl, fun _ => requests_released rfl rfl hx⟩

theorem takes_behind {index : ℕ} (h : count ≤ index) (x : Info) : Takes reply .idle g (g.setEntry index x) := by
  rw [setEntry_of_le g h]
  exact ⟨rfl, rfl, fun _ => rfl⟩

theorem takes_stray {index : ℕ} (h : count ≤ index) (x : Info) :
    Takes reply .stray g { g.setEntry index x with outstanding := g.outstanding - 1 } := by
  rw [setEntry_of_le g h]
  exact ⟨rfl, rfl, fun _ => rfl⟩

inductive Moves (reply : Info → Bool) (p : Progress Opt Info count) :
    Change (Fin count) → Progress Opt Info count → Prop
  | sends {g' : Globals Opt Info count} {sent : Option (Fin count)} (h : Sends reply p.globals g' sent) :
      Moves reply p .idle ⟨g', sent.elim p.sent (insert · p.sent)⟩
  | takes {c : Change (Fin count)} {g' : Globals Opt Info count} (h : Takes reply c p.globals g') :
      Moves reply p c ⟨g'.checkDone, p.sent⟩

theorem Moves.orderly {p' : Progress Opt Info count} (h : Moves reply p c p') (hp : Orderly p)
    (hstopped : p.globals.stopped = false) : Orderly p' := by
  cases h with
  | sends h => exact h.orderly hp hstopped
  | takes h => exact h.orderly hp hstopped

theorem Moves.accurate_iff {p' : Progress Opt Info count} (h : Moves reply p c p') (hp : Orderly p)
    (haccurate : (p.requests reply).Accurate) :
    (p'.requests reply).Accurate ↔ c.Fits (p.requests reply) := by
  cases h with
  | sends h => exact iff_of_true (h.accurate hp haccurate) trivial
  | takes h => exact h.accurate_iff haccurate

theorem Started.accurate (h : Started p) : (p.requests reply).Accurate := by
  simp [Requests.Accurate, Progress.requests, h.sent, h.outstanding]

theorem step_moves {t : Callbacks Opt Info Sending Received count} {p' : Progress Opt Info count}
    {event : Event Sending Received} {Q : Event Sending Received → Prop} (hsends : ∀ r, Q (.send r))
    (hnone : Q (.receive none))
    (hsend : ∀ r g' sent, t.sendPacket r p.globals = .ok (g', sent) → Sends reply p.globals g' sent)
    (hreceive : ∀ r g', t.processReceived r p.globals = .ok g' →
      ∃ c, Takes reply c p.globals g' ∧ (Q (.receive (some r)) ↔ c.Fits (p.requests reply)))
    (h : Step t p event p') : ∃ c, Moves reply p c p' ∧ (Q event ↔ c.Fits (p.requests reply)) := by
  obtain ⟨-, -, h⟩ := h
  match event, h with
  | .send r, h =>
    obtain ⟨⟨g, sent⟩, hok, h⟩ := bind_eq_ok.mp h
    cases h
    exact ⟨_, .sends (hsend r g sent hok), iff_of_true (hsends r) trivial⟩
  | .receive none, h =>
    cases h
    exact ⟨_, .takes (takes_idle _ _), iff_of_true hnone trivial⟩
  | .receive (some r), h =>
    obtain ⟨g, hok, h⟩ := bind_eq_ok.mp h
    cases h
    obtain ⟨c, htakes, hfits⟩ := hreceive r g hok
    exact ⟨c, .takes htakes, hfits⟩

theorem always_counted_iff {t : Callbacks Opt Info Sending Received count}
    {P : Progress Opt Info count → Prop}
    {Q : Progress Opt Info count → Event Sending Received → Prop}
    (Inv : Progress Opt Info count → Prop) (horderly : ∀ p, Inv p → Orderly p)
    (hcounted : ∀ p, Orderly p → (P p ↔ (p.requests reply).Accurate))
    (hmoves : ∀ p event p', Inv p → Step t p event p' → ∃ c, Moves reply p c p' ∧ (Q p event ↔ c.Fits (p.requests reply)))
    (hinv : ∀ p event p', Inv p → Step t p event p' → Orderly p' → Q p event → Inv p') (hs : Inv p)
    (hstart : Started p) (events : List (Event Sending Received)) :
    Always (Step t) P p events ↔ Each (Step t) Q p events := by
  have hkept : ∀ p event p', Inv p → Step t p event p' → Orderly p' := fun p event p' hp hstep => by
    obtain ⟨c, hmove, -⟩ := hmoves p event p' hp hstep
    exact hmove.orderly (horderly p hp) hstep.1
  refine always_iff_each Inv ?_ ?_ hs ((hcounted p (horderly p hs)).mpr hstart.accurate) events
  · intro p event p' hp hstep hcount
    obtain ⟨c, hmove, hfits⟩ := hmoves p event p' hp hstep
    rw [hcounted p' (hkept p event p' hp hstep), hfits]
    exact hmove.accurate_iff (horderly p hp) ((hcounted p (horderly p hp)).mp hcount)
  · intro p event p' hp hstep _ hQ
    exact hinv p event p' hp hstep (hkept p event p' hp hstep) hQ

theorem outstanding_eq_zero_iff (haccurate : (p.requests reply).Accurate) :
    p.globals.outstanding = 0 ↔ ∀ i ∈ p.sent, reply (p.globals.info i) = true := by
  have hcard : p.globals.outstanding = (p.requests reply).waiting.card := haccurate
  rw [hcard, Nat.cast_eq_zero, Finset.card_eq_zero, Finset.eq_empty_iff_forall_notMem]
  simp only [mem_waiting, not_and, Bool.not_eq_false]

end Spec

end Amplet.ProbeTest
