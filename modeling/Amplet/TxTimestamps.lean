import Amplet.ProbeTest
import Amplet.SignedWords
import Mathlib.Data.List.Count

/-!
# Times at which packets were sent

Embedding of `retrieve_timestamping`, `get_tx_timestamping` and `delay_send_packet` in
`src/common/testlib.c`, built with `SOF_TIMESTAMPING_OPT_ID`. What `recvmsg` finds on
the error queue is given poll by poll. The kernel numbers the packets of a socket that
were sent; the library counts the calls of `sendto`, those that fail included.
-/

namespace Amplet.TxTimestamps
open List Function ProbeTest ScheduleTime SignedWords

def maxTxTimestampFd : ℕ := 64

structure Timespec where
  sec : ℤ
  nsec : ℤ
deriving DecidableEq, Repr

structure Timestamping where
  software : Timespec
  hardware : Timespec
deriving DecidableEq, Repr

/-- Timestamps (long enough or not), an error (for the timestamps or not), or something else. -/
inductive Cmsg
  | timestamping (complete : Bool) (ts : Timestamping)
  | recvErr (timestamping : Bool) (data : UInt32)
  | other
deriving DecidableEq, Repr

inductive Poll
  | message (errqueue : Bool) (cmsgs : List Cmsg)
  | again
  | failed
deriving DecidableEq, Repr

def stampTime (ts : Timestamping) : TimeVal :=
  if ts.hardware.sec ≠ 0 then ⟨ts.hardware.sec, ts.hardware.nsec.tdiv 1000⟩
  else ⟨ts.software.sec, ts.software.nsec.tdiv 1000⟩

def retrieveTimestamping (complete : Bool) (ts : Timestamping) (now : TimeVal) : TimeVal :=
  if complete then stampTime ts else now

def scanCmsgs (packetId : UInt32) : Option (Bool × Timestamping) → Option UInt32 → List Cmsg → Option (Bool × Timestamping)
  | _, _, [] => none
  | tsmsg, serr, c :: cmsgs =>
    let tsmsg := match c with
      | .timestamping complete ts => some (complete, ts)
      | _ => tsmsg
    let serr := match c with
      | .recvErr timestamping data => if timestamping then some data else none
      | _ => serr
    if tsmsg.isSome ∧ serr = some packetId then tsmsg else scanCmsgs packetId tsmsg serr cmsgs

def pollFrom (packetId : UInt32) (polls : ℕ → Poll) (sent : TimeVal) : ℕ → ℕ → TimeVal
  | 0, _ => sent
  | fuel + 1, check =>
    let next := if check < 100 then pollFrom packetId polls sent fuel (check + 1) else sent
    match polls check with
    | .message errqueue cmsgs =>
      if !errqueue then sent
      else
        match scanCmsgs packetId none none cmsgs with
        | some (complete, ts) => retrieveTimestamping complete ts sent
        | none => next
    | .again => next
    | .failed => sent

def getTxTimestamping (polls : ℕ → Poll) (packetId : UInt32) (sent : Option TimeVal) : Option TimeVal :=
  sent.map fun sent => pollFrom packetId polls sent 101 0

/-- `timed` is whether it is given a place for the time. -/
structure Call where
  sock : ℕ
  interPacketDelay : UInt32
  timed : Bool
  now : TimeVal
  whole : Bool
deriving DecidableEq, Repr

structure Sender where
  last : TimeVal
  packetId : ℕ → UInt32

/-- A delay that is left is never zero. -/
def wait (last : TimeVal) (call : Call) : ℤ :=
  let diff := max 0 (int32 (diffTvUs call.now last))
  if last.sec ≠ 0 ∧ diff < int32 call.interPacketDelay.toNat then
    int32 (call.interPacketDelay.toNat - diff)
  else 0

/-- The statics, the value returned and the time that was stored. -/
def delaySendPacket (polls : ℕ → Poll) (call : Call) (s : Sender) : Sender × ℤ × Option TimeVal :=
  let delay := wait s.last call
  if delay ≠ 0 then (s, delay, none)
  else
    let sent := if call.timed then some call.now else none
    let result := if call.whole then 0 else -1
    if call.sock < maxTxTimestampFd then
      (⟨call.now, update s.packetId call.sock (s.packetId call.sock + 1)⟩, result,
        getTxTimestamping polls (s.packetId call.sock) sent)
    else ({ s with last := call.now }, result, sent)

section Runs

variable (calls : ℕ → Call) (polls : ℕ → ℕ → Poll)

def senderAt : ℕ → Sender
  | 0 => ⟨⟨0, 0⟩, fun _ => 0⟩
  | i + 1 => (delaySendPacket (polls i) (calls i) (senderAt i)).1

def answerAt (i : ℕ) : ℤ × Option TimeVal :=
  (delaySendPacket (polls i) (calls i) (senderAt calls polls i)).2

def lastAt : ℕ → TimeVal
  | 0 => ⟨0, 0⟩
  | i + 1 => if wait (lastAt i) (calls i) ≠ 0 then lastAt i else (calls i).now

def Sends (i : ℕ) : Prop := wait (lastAt calls i) (calls i) = 0

instance (i : ℕ) : Decidable (Sends calls i) := inferInstanceAs (Decidable (_ = _))

def Sent (i : ℕ) : Prop := Sends calls i ∧ (calls i).whole = true

instance (i : ℕ) : Decidable (Sent calls i) := inferInstanceAs (Decidable (_ ∧ _))

def number (i : ℕ) : ℕ :=
  (range i).countP fun j => (calls j).sock = (calls i).sock ∧ Sent calls j

def failures (i : ℕ) : ℕ :=
  (range i).countP fun j => (calls j).sock = (calls i).sock ∧ Sends calls j ∧ ¬(calls j).whole = true

def stampMessage (id : UInt32) (ts : Timestamping) : Poll :=
  .message true [.timestamping true ts, .recvErr true id]

/-- The message about a packet is there while the call that sent it polls. -/
structure Kernel : Prop where
  answers : ∀ i k, polls i k = .again ∨ ∃ j ts, j ≤ i ∧ Sent calls j ∧ (calls j).sock = (calls i).sock ∧
    polls i k = stampMessage (UInt32.ofNat (number calls j)) ts
  available : ∀ i, Sent calls i → ∃ k ts, k ≤ 100 ∧ polls i k = stampMessage (UInt32.ofNat (number calls i)) ts

end Runs

section Polling

variable {packetId : UInt32} {polls : ℕ → Poll} {sent : TimeVal} {fuel check : ℕ}

theorem scanCmsgs_stampMessage (packetId id : UInt32) (ts : Timestamping) :
    scanCmsgs packetId none none [.timestamping true ts, .recvErr true id] =
      if id = packetId then some (true, ts) else none := by
  by_cases h : id = packetId
  · simp [scanCmsgs, h]
  · simp [scanCmsgs, h]

def Answers (polls : ℕ → Poll) : Prop := ∀ k, polls k = .again ∨ ∃ id ts, polls k = stampMessage id ts

theorem pollFrom_next (hanswers : Answers polls) (h : ∀ ts, polls check ≠ stampMessage packetId ts) :
    pollFrom packetId polls sent (fuel + 1) check =
      if check < 100 then pollFrom packetId polls sent fuel (check + 1) else sent := by
  rw [pollFrom]
  rcases hanswers check with hagain | ⟨id, ts, hmessage⟩
  · rw [hagain]
  · have hid : id ≠ packetId := fun hid => h ts (hid ▸ hmessage)
    rw [hmessage, stampMessage]
    dsimp only
    rw [scanCmsgs_stampMessage, if_neg hid]
    rfl

theorem pollFrom_found {ts : Timestamping} (h : polls check = stampMessage packetId ts) :
    pollFrom packetId polls sent (fuel + 1) check = stampTime ts := by
  rw [pollFrom, h, stampMessage]
  dsimp only
  rw [scanCmsgs_stampMessage, if_pos rfl]
  rfl

theorem pollFrom_available {k : ℕ} (hanswers : Answers polls) (hfuel : 100 < check + fuel)
    (hcheck : check ≤ k) (hk : k ≤ 100) (h : ∃ ts, polls k = stampMessage packetId ts) :
    ∃ j ts, polls j = stampMessage packetId ts ∧ pollFrom packetId polls sent fuel check = stampTime ts := by
  induction fuel generalizing check with
  | zero => omega
  | succ fuel ih =>
    by_cases hhere : ∃ ts, polls check = stampMessage packetId ts
    · obtain ⟨ts, hts⟩ := hhere
      exact ⟨check, ts, hts, pollFrom_found hts⟩
    · have hne : check ≠ k := fun heq => hhere (heq ▸ h)
      rw [pollFrom_next hanswers (not_exists.mp hhere), if_pos (by omega)]
      exact ih (by omega) (by omega)

theorem pollFrom_missing (hanswers : Answers polls) (h : ∀ k ts, polls k ≠ stampMessage packetId ts) :
    pollFrom packetId polls sent fuel check = sent := by
  induction fuel generalizing check with
  | zero => rfl
  | succ fuel ih =>
    rw [pollFrom_next hanswers (h check), ih]
    exact ite_self sent

end Polling

section Counting

variable {calls : ℕ → Call} {polls : ℕ → ℕ → Poll} {i : ℕ}

theorem delaySendPacket_waits {s : Sender} {call : Call} (polls : ℕ → Poll)
    (h : wait s.last call ≠ 0) : (delaySendPacket polls call s).1 = s := by
  rw [delaySendPacket]
  dsimp only
  rw [if_pos h]

theorem delaySendPacket_sends {s : Sender} {call : Call} (polls : ℕ → Poll) (h : wait s.last call = 0) :
    (delaySendPacket polls call s).1 = ⟨call.now, if call.sock < maxTxTimestampFd then
      update s.packetId call.sock (s.packetId call.sock + 1) else s.packetId⟩ := by
  rw [delaySendPacket]
  dsimp only
  rw [if_neg (not_not.mpr h)]
  split_ifs <;> rfl

theorem senderAt_last : (senderAt calls polls i).last = lastAt calls i := by
  induction i with
  | zero => rfl
  | succ i ih =>
    rw [senderAt, lastAt, ← ih]
    split_ifs with hwait
    · rw [delaySendPacket_waits _ hwait]
    · rw [delaySendPacket_sends _ (not_not.mp hwait)]

theorem senderAt_packetId {fd : ℕ} (hfd : fd < maxTxTimestampFd) : (senderAt calls polls i).packetId fd =
      UInt32.ofNat ((range i).countP fun j => (calls j).sock = fd ∧ Sends calls j) := by
  induction i with
  | zero => rfl
  | succ i ih =>
    rw [range_succ, countP_append, countP_singleton, UInt32.ofNat_add, ← ih, senderAt]
    by_cases hsends : Sends calls i
    · have hwait : wait (senderAt calls polls i).last (calls i) = 0 := by
        rw [senderAt_last]
        exact hsends
      rw [delaySendPacket_sends _ hwait]
      dsimp only
      by_cases hsock : (calls i).sock = fd
      · subst hsock
        rw [if_pos hfd, if_pos (by simpa using hsends)]
        exact update_self _ _ _
      · have hkept : (if (calls i).sock < maxTxTimestampFd then
            update (senderAt calls polls i).packetId (calls i).sock ((senderAt calls polls i).packetId (calls i).sock + 1)
            else (senderAt calls polls i).packetId) fd = (senderAt calls polls i).packetId fd := by
          split_ifs
          · exact update_of_ne (Ne.symm hsock) _ _
          · rfl
        rw [hkept, if_neg (by simp [hsock])]
        exact (UInt32.add_zero _).symm
    · have hwait : wait (senderAt calls polls i).last (calls i) ≠ 0 := by
        rw [senderAt_last]
        exact hsends
      rw [delaySendPacket_waits _ hwait, if_neg (by simp [hsends])]
      exact (UInt32.add_zero _).symm

theorem countP_sends (l : List ℕ) (fd : ℕ) : (l.countP fun j => (calls j).sock = fd ∧ Sends calls j) =
      (l.countP fun j => (calls j).sock = fd ∧ Sent calls j) +
        l.countP fun j => (calls j).sock = fd ∧ Sends calls j ∧ ¬(calls j).whole = true := by
  induction l with
  | nil => rfl
  | cons j l ih =>
    simp only [countP_cons, ih, Sent]
    by_cases hsock : (calls j).sock = fd <;> by_cases hsends : Sends calls j <;>
      by_cases hwhole : (calls j).whole = true <;> simp [hsock, hsends, hwhole] <;> omega

section

variable (hsock : (calls i).sock < maxTxTimestampFd)
include hsock

theorem packetId_eq : (senderAt calls polls i).packetId (calls i).sock = UInt32.ofNat (number calls i + failures calls i) := by
  rw [senderAt_packetId hsock, countP_sends]
  rfl

theorem packetId_eq_number_iff : (senderAt calls polls i).packetId (calls i).sock = UInt32.ofNat (number calls i) ↔
      failures calls i % 2 ^ 32 = 0 := by
  rw [packetId_eq hsock, ← UInt32.toNat_inj, UInt32.toNat_ofNat', UInt32.toNat_ofNat']
  omega

theorem answerAt_sent (hsent : Sent calls i) (htimed : (calls i).timed = true) :
    answerAt calls polls i = (0, some (pollFrom ((senderAt calls polls i).packetId (calls i).sock)
      (polls i) (calls i).now 101 0)) := by
  have hwait : wait (senderAt calls polls i).last (calls i) = 0 := by
    rw [senderAt_last]
    exact hsent.1
  simp only [answerAt, delaySendPacket, hwait, hsock, htimed, hsent.2, getTxTimestamping,
    ne_eq, not_true_eq_false, if_true, if_false, Option.map_some]

end

theorem Kernel.messages (h : Kernel calls polls) (i : ℕ) : Answers (polls i) := fun k =>
  (h.answers i k).imp_right fun ⟨_, ts, _, _, _, hts⟩ => ⟨_, ts, hts⟩

end Counting

section Matching

variable {calls : ℕ → Call} {n : ℕ} {i : ℕ}

def Matched (calls : ℕ → Call) (polls : ℕ → ℕ → Poll) (i : ℕ) : Prop :=
  ∃ k ts, polls i k = stampMessage (UInt32.ofNat (number calls i)) ts ∧ answerAt calls polls i = (0, some (stampTime ts))

def promptPolls (calls : ℕ → Call) (ts : Timestamping) : ℕ → ℕ → Poll := fun i k =>
  if Sent calls i ∧ k = 0 then stampMessage (UInt32.ofNat (number calls i)) ts else .again

theorem promptPolls_kernel (calls : ℕ → Call) (ts : Timestamping) : Kernel calls (promptPolls calls ts) where
  answers i k := by
    unfold promptPolls
    split_ifs with h
    · exact .inr ⟨i, ts, le_rfl, h.1, rfl, rfl⟩
    · exact .inl rfl
  available i hsent := ⟨0, ts, Nat.zero_le _, if_pos ⟨hsent, rfl⟩⟩

theorem stampMessage_inj {id id' : UInt32} {ts ts' : Timestamping}
    (h : stampMessage id ts = stampMessage id' ts') : id = id' ∧ ts = ts' := by
  simp only [stampMessage, Poll.message.injEq, cons.injEq, Cmsg.timestamping.injEq, Cmsg.recvErr.injEq, and_true, true_and] at h
  exact ⟨h.2, h.1⟩

theorem promptPolls_eq {ts ts' : Timestamping} {k : ℕ} {id : UInt32} (h : promptPolls calls ts i k = stampMessage id ts') :
    UInt32.ofNat (number calls i) = id ∧ ts = ts' := by
  unfold promptPolls at h
  split_ifs at h
  · exact stampMessage_inj h
  · cases h

theorem matched_of_no_failures {polls : ℕ → ℕ → Poll} (hkernel : Kernel calls polls)
    (hsock : (calls i).sock < maxTxTimestampFd) (hsent : Sent calls i)
    (htimed : (calls i).timed = true) (h : failures calls i % 2 ^ 32 = 0) :
    Matched calls polls i := by
  obtain ⟨k, ts, hk, hts⟩ := hkernel.available i hsent
  have hid : (senderAt calls polls i).packetId (calls i).sock = UInt32.ofNat (number calls i) :=
    (packetId_eq_number_iff hsock).mpr h
  rw [Matched, answerAt_sent hsock hsent htimed, hid]
  obtain ⟨j, ts', hts', htime⟩ :=
    pollFrom_available (hkernel.messages i) (show 100 < 0 + 101 by decide) (Nat.zero_le k) hk ⟨ts, hts⟩
  exact ⟨j, ts', hts', by rw [htime]⟩

theorem answerAt_promptPolls {ts : Timestamping} (hsock : (calls i).sock < maxTxTimestampFd)
    (hsent : Sent calls i) (htimed : (calls i).timed = true) (h : failures calls i % 2 ^ 32 ≠ 0) :
    answerAt calls (promptPolls calls ts) i = (0, some (calls i).now) := by
  rw [answerAt_sent hsock hsent htimed, pollFrom_missing ((promptPolls_kernel calls ts).messages i)]
  intro k ts' hts
  exact h ((packetId_eq_number_iff hsock).mp (promptPolls_eq hts).1.symm)

/-- Exactly if no packet is sent after a call failed on the same socket, up to a full turn of the
counter. -/
theorem times_matched_iff (calls : ℕ → Call) (n : ℕ) (hsock : ∀ i < n, (calls i).sock < maxTxTimestampFd) :
    (∀ polls, Kernel calls polls → ∀ i < n, Sent calls i → (calls i).timed = true → Matched calls polls i) ↔
      ∀ i < n, Sent calls i → (calls i).timed = true → failures calls i % 2 ^ 32 = 0 := by
  constructor
  · intro h i hi hsent htimed
    by_contra hfailures
    -- a kernel whose time is not the one of the clock
    let ts : Timestamping := ⟨⟨(calls i).now.sec + 1, 0⟩, ⟨0, 0⟩⟩
    obtain ⟨k, ts', hts, htime⟩ := h _ (promptPolls_kernel calls ts) i hi hsent htimed
    rw [answerAt_promptPolls (hsock i hi) hsent htimed hfailures, ← (promptPolls_eq hts).2] at htime
    have hnow : (calls i).now = stampTime ts := Option.some.inj (Prod.mk.inj htime).2
    have hsec : (calls i).now.sec = (calls i).now.sec + 1 := congrArg TimeVal.sec hnow
    omega
  · intro h polls hkernel i hi hsent htimed
    exact matched_of_no_failures hkernel (hsock i hi) hsent htimed (h i hi hsent htimed)

theorem times_of_two_packets :
    let calls : ℕ → Call := fun i => ⟨5, 0, true, ⟨10 + i, 0⟩, true⟩
    Matched calls (promptPolls calls ⟨⟨20, 5000⟩, ⟨0, 0⟩⟩) 1 := by
  intro calls
  refine (times_matched_iff calls 2 fun _ _ => show 5 < 64 by decide).mpr ?_ _
    (promptPolls_kernel calls _) 1 (by decide) (by decide) rfl
  decide

theorem time_after_failure :
    let calls : ℕ → Call := fun i => ⟨5, 0, true, ⟨10 + i, 0⟩, i ≠ 0⟩
    let polls := promptPolls calls ⟨⟨20, 5000⟩, ⟨0, 0⟩⟩
    Kernel calls polls ∧ Sent calls 1 ∧ number calls 1 = 0 ∧ polls 1 0 = stampMessage 0 ⟨⟨20, 5000⟩, ⟨0, 0⟩⟩ ∧
      answerAt calls polls 1 = (0, some ⟨11, 0⟩) ∧ stampTime ⟨⟨20, 5000⟩, ⟨0, 0⟩⟩ = ⟨20, 5⟩ :=
  ⟨promptPolls_kernel _ _, by decide, by decide, by decide, by decide, by decide⟩

end Matching

end Amplet.TxTimestamps
