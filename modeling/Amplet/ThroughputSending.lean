import Amplet.SignedWords
import Amplet.ThroughputChunks
import Amplet.ThroughputSchedule

/-!
# Sending a throughput stream

Embedding of `sendStream` and `writeBuffer` in
`src/tests/throughput/throughput_common.c`, one call into the system at a time. The
replies, the clock and the random bytes come from numbered sequences. A `write` that is
not refused takes at least one byte, and at most what the kernel moves in one call. The
buffer can always be allocated.
-/

namespace Amplet.ThroughputSending
open List Function Bytes ThroughputSchedule ThroughputChunks SignedWords ChunkedCoding

inductive SelectReply
  | timeout
  | interrupted
  | failed
  | ready (fill : CStr)
deriving DecidableEq, Repr

def SelectReply.isReady : SelectReply → Bool
  | .ready _ => true
  | _ => false

/-- `room n` takes up to `n + 1` bytes. -/
inductive WriteReply
  | interrupted
  | failed
  | room (n : ℕ)
deriving DecidableEq, Repr

structure Env where
  clock : ℕ → UInt64
  select : ℕ → SelectReply
  write : ℕ → WriteReply
  tcpinfo : Option TcpInfo

inductive Pc
  | turn
  | select (bytesToSend : ℕ)
  | write (length total : ℕ)
  | returned (status : ℤ)
deriving DecidableEq, Repr

/-- `body` is what each write after the last header was given, and `sent` all that the kernel
took. -/
structure Sending where
  pc : Pc
  more : Bool
  packetOut : CStr
  result : TestResult
  clocks : ℕ
  selects : ℕ
  writes : ℕ
  body : List CStr
  sent : CStr
deriving DecidableEq, Repr

def start (env : Env) (req : TestRequest) : Sending where
  pc := if HasEnd req then .turn else .returned (-1)
  more := true
  packetOut := replicate req.writeSize.toNat 0
  result := ⟨0, if HasEnd req then env.clock 0 else 0, 0, none⟩
  clocks := 1
  selects := 0
  writes := 0
  body := []
  sent := []

def finish (env : Env) (s : Sending) : Sending :=
  { s with
    pc := .returned 0
    result := { s.result with endNs := env.clock s.clocks, tcpinfo := env.tcpinfo }
    clocks := s.clocks + 1 }

def loopEnd (env : Env) (s : Sending) : Sending :=
  if s.more then { s with pc := .turn } else finish env s

def turn (env : Env) (req : TestRequest) (s : Sending) : Sending :=
  let now := env.clock s.clocks
  let runTimeMs := (now - s.result.startNs).toNat / 1000000
  let s := { s with result := { s.result with endNs := now }, clocks := s.clocks + 1 }
  if 0 < req.duration ∧ req.duration.toNat ≤ runTimeMs then finish env s
  else if 0 < req.bytes ∧ req.bytes - s.result.bytes < req.writeSize.toUInt64 then
    { s with pc := .select (req.bytes - s.result.bytes).toNat, more := false }
  else { s with pc := .select req.writeSize.toNat }

def preparePacket (req : TestRequest) (s : Sending) (fill : CStr) (bytesToSend : ℕ) : CStr :=
  match req.protocol with
  | .httpPost =>
    if s.result.bytes = 0 then addHttpHeaders fill s.packetOut bytesToSend
    else addHttpChunkHeader fill s.packetOut bytesToSend (req.randomise ≠ 0)
  | .none =>
    if req.randomise ≠ 0 ∨ s.result.bytes = 0 then randomMemset fill s.packetOut bytesToSend
    else s.packetOut

def selected (env : Env) (req : TestRequest) (s : Sending) (bytesToSend : ℕ) : Sending :=
  let called := { s with selects := s.selects + 1 }
  match env.select s.selects with
  | .timeout => finish env called
  | .interrupted => loopEnd env called
  | .failed => finish env called
  | .ready fill =>
    let packet := preparePacket req s fill bytesToSend
    { called with
      pc := .write bytesToSend 0
      packetOut := packet
      body :=
        if s.result.bytes = 0 then [(packet.take bytesToSend).drop headers.length]
        else s.body ++ [packet.take bytesToSend] }

def writeBufferResult (length total : ℕ) : ℤ := if total ≠ length then -1 else int32 total

def bufferWritten (env : Env) (s : Sending) (length total : ℕ) : Sending :=
  if writeBufferResult length total < 0 then finish env s
  else
    loopEnd env { s with
      result := { s.result with
        bytes := s.result.bytes + UInt64.ofInt (writeBufferResult length total) } }

/-- The most that Linux moves in one call. -/
def maxRwCount : ℕ := 0x7ffff000

def wrote (env : Env) (s : Sending) (length total : ℕ) : Sending :=
  let called := { s with writes := s.writes + 1 }
  match env.write s.writes with
  | .interrupted => called
  | .failed => bufferWritten env called length total
  | .room n =>
    let count := min (n + 1) (min (length - total) maxRwCount)
    let taken := { called with sent := s.sent ++ (s.packetOut.drop total).take count }
    if 0 < count ∧ total + count < length then { taken with pc := .write length (total + count) }
    else bufferWritten env taken length (total + count)

def step (env : Env) (req : TestRequest) (s : Sending) : Sending :=
  match s.pc with
  | .turn => turn env req s
  | .select bytesToSend => selected env req s bytesToSend
  | .write length total => wrote env s length total
  | .returned _ => s

def sendStream (env : Env) (req : TestRequest) (n : ℕ) : Sending :=
  (step env req)^[n] (start env req)

section

variable {env : Env} {req : TestRequest} {s : Sending} {length total bytesToSend : ℕ} {status : ℤ}

def Pc.Fits (size : ℕ) : Pc → Prop
  | .select bytesToSend => bytesToSend ≤ size
  | .write length total => total ≤ length ∧ length ≤ size
  | _ => True

structure Sound (req : TestRequest) (s : Sending) : Prop where
  buffer : s.packetOut.length = req.writeSize.toNat
  fits : s.pc.Fits req.writeSize.toNat
  short : ∀ p ∈ s.body, p.length < 2 ^ 32
  chunks : req.protocol = .httpPost → ∀ p ∈ s.body, IsChunkWrite p

theorem sound_start (env : Env) (req : TestRequest) : Sound req (start env req) where
  buffer := length_replicate
  fits := by
    simp only [start]
    split_ifs <;> trivial
  short := by simp [start]
  chunks := by simp [start]

theorem Sound.finish (h : Sound req s) : Sound req (finish env s) :=
  ⟨h.buffer, trivial, h.short, h.chunks⟩

theorem Sound.loopEnd (h : Sound req s) : Sound req (loopEnd env s) := by
  rw [ThroughputSending.loopEnd]
  split_ifs
  · exact ⟨h.buffer, trivial, h.short, h.chunks⟩
  · exact h.finish

theorem Sound.turn (h : Sound req s) : Sound req (turn env req s) := by
  unfold ThroughputSending.turn
  dsimp only
  split_ifs with hdone hlast
  · exact Sound.finish ⟨h.buffer, h.fits, h.short, h.chunks⟩
  · refine ⟨h.buffer, ?_, h.short, h.chunks⟩
    have hlt := UInt64.lt_iff_toNat_lt.mp hlast.2
    rw [UInt32.toNat_toUInt64] at hlt
    exact hlt.le
  · exact ⟨h.buffer, le_rfl, h.short, h.chunks⟩

theorem length_preparePacket (h : s.packetOut.length = req.writeSize.toNat) (fill : CStr)
    (hfits : bytesToSend ≤ req.writeSize.toNat) :
    (preparePacket req s fill bytesToSend).length = req.writeSize.toNat := by
  have hmax := req.writeSize.toNat_lt
  rw [← h] at hfits ⊢
  rw [preparePacket]
  split
  · split_ifs
    · exact length_addHttpHeaders fill (by omega) hfits
    · exact length_addHttpChunkHeader fill _ (by omega) hfits
  · split_ifs
    · exact length_randomMemset fill hfits
    · rfl

theorem isChunkWrite_preparePacket (hproto : req.protocol = .httpPost)
    (h : s.packetOut.length = req.writeSize.toNat) (fill : CStr)
    (hfits : bytesToSend ≤ req.writeSize.toNat) :
    IsChunkWrite (if s.result.bytes = 0 then
        ((preparePacket req s fill bytesToSend).take bytesToSend).drop headers.length
      else (preparePacket req s fill bytesToSend).take bytesToSend) := by
  have hmax := req.writeSize.toNat_lt
  rw [← h] at hfits
  simp only [preparePacket, hproto]
  split_ifs with hfirst
  · rcases Nat.lt_or_ge bytesToSend headers.length with hlt | hge
    · rw [drop_eq_nil_of_le (by rw [length_take]; omega)]
      exact isChunkWrite_nil
    · obtain ⟨packet, htake, hpacket⟩ := take_addHttpHeaders fill hge (by omega) hfits
      rw [htake, drop_left]
      exact hpacket
  · exact isChunkWrite_take fill _ (by omega) hfits

theorem Sound.selected (h : Sound req s) (hfits : bytesToSend ≤ req.writeSize.toNat) :
    Sound req (selected env req s bytesToSend) := by
  have hcalled : Sound req { s with selects := s.selects + 1 } :=
    ⟨h.buffer, h.fits, h.short, h.chunks⟩
  unfold ThroughputSending.selected
  cases env.select s.selects with
  | timeout => exact hcalled.finish
  | interrupted => exact hcalled.loopEnd
  | failed => exact hcalled.finish
  | ready fill =>
    have hmax := req.writeSize.toNat_lt
    have hlength : ((preparePacket req s fill bytesToSend).take bytesToSend).length < 2 ^ 32 := by
      rw [length_take]
      omega
    refine ⟨length_preparePacket h.buffer fill hfits, ⟨Nat.zero_le _, hfits⟩, ?_, ?_⟩
    · intro p hp
      dsimp only at hp
      split_ifs at hp
      · rw [mem_singleton.mp hp, length_drop]
        omega
      · rcases mem_append.mp hp with hp | hp
        · exact h.short p hp
        · rwa [mem_singleton.mp hp]
    · intro hproto p hp
      have hwrite := isChunkWrite_preparePacket hproto h.buffer fill hfits
      dsimp only at hp
      split_ifs at hp hwrite
      · rwa [mem_singleton.mp hp]
      · rcases mem_append.mp hp with hp | hp
        · exact h.chunks hproto p hp
        · rwa [mem_singleton.mp hp]

theorem Sound.bufferWritten (h : Sound req s) : Sound req (bufferWritten env s length total) := by
  rw [ThroughputSending.bufferWritten]
  split_ifs
  · exact h.finish
  · exact Sound.loopEnd ⟨h.buffer, h.fits, h.short, h.chunks⟩

theorem Sound.wrote (h : Sound req s) (hfits : total ≤ length ∧ length ≤ req.writeSize.toNat) :
    Sound req (wrote env s length total) := by
  unfold ThroughputSending.wrote
  cases env.write s.writes with
  | interrupted => exact ⟨h.buffer, h.fits, h.short, h.chunks⟩
  | failed => exact Sound.bufferWritten ⟨h.buffer, h.fits, h.short, h.chunks⟩
  | room n =>
    dsimp only
    split_ifs with hmore
    · exact ⟨h.buffer, ⟨hmore.2.le, hfits.2⟩, h.short, h.chunks⟩
    · exact Sound.bufferWritten ⟨h.buffer, h.fits, h.short, h.chunks⟩

theorem Sound.step (h : Sound req s) : Sound req (step env req s) := by
  have hfits := h.fits
  unfold ThroughputSending.step
  cases hpc : s.pc with
  | turn => exact h.turn
  | select bytesToSend => exact h.selected (by rwa [hpc] at hfits)
  | write length total => exact h.wrote (by rwa [hpc] at hfits)
  | returned status => exact h

theorem sound_sendStream (env : Env) (req : TestRequest) (n : ℕ) : Sound req (sendStream env req n) := by
  induction n with
  | zero => exact sound_start env req
  | succ n ih =>
    rw [sendStream, iterate_succ_apply']
    exact ih.step

/-- Only interruptions come between the calls and what they are for, and none of
the calls is interrupted for ever. -/
structure Env.Quiet (env : Env) : Prop where
  select : ∀ i, env.select i = .interrupted ∨ (env.select i).isReady
  write : ∀ i, env.write i = .interrupted ∨ ∃ n, env.write i = .room n
  selectLater : ∀ i, ∃ j, i ≤ j ∧ env.select j ≠ .interrupted
  writeLater : ∀ i, ∃ j, i ≤ j ∧ env.write j ≠ .interrupted

def Reaches (env : Env) (req : TestRequest) (s t : Sending) : Prop :=
  ∃ n, (step env req)^[n] s = t

theorem Reaches.refl (s : Sending) : Reaches env req s s := ⟨0, rfl⟩

theorem Reaches.trans {t u : Sending} (h : Reaches env req s t) (h' : Reaches env req t u) :
    Reaches env req s u := by
  obtain ⟨m, rfl⟩ := h
  obtain ⟨n, rfl⟩ := h'
  exact ⟨n + m, iterate_add_apply ..⟩

theorem Reaches.of_step {t : Sending} (h : step env req s = t) : Reaches env req s t := ⟨1, h⟩

theorem step_of_turn (env : Env) (req : TestRequest) (h : s.pc = .turn) : step env req s = turn env req s := by
  rw [step, h]

theorem step_of_select (env : Env) (req : TestRequest) (h : s.pc = .select bytesToSend) :
    step env req s = selected env req s bytesToSend := by
  rw [step, h]

theorem step_of_write (env : Env) (req : TestRequest) (h : s.pc = .write length total) :
    step env req s = wrote env s length total := by
  rw [step, h]

theorem write_retried (hquiet : env.Quiet) (req : TestRequest) (hpc : s.pc = .write length total) :
    ∃ w n, env.write w = .room n ∧ Reaches env req s { s with writes := w } := by
  obtain ⟨j, hj, hne⟩ := hquiet.writeLater s.writes
  obtain ⟨d, rfl⟩ := Nat.exists_eq_add_of_le hj
  induction d generalizing s with
  | zero =>
    obtain ⟨n, hn⟩ := (hquiet.write s.writes).resolve_left hne
    exact ⟨s.writes, n, hn, Reaches.refl s⟩
  | succ d ih =>
    rcases hquiet.write s.writes with hint | ⟨n, hn⟩
    · have hstep : step env req s = { s with writes := s.writes + 1 } := by
        rw [step_of_write env req hpc, wrote, hint]
      have hnext : env.write (s.writes + 1 + d) ≠ .interrupted := by
        rwa [Nat.add_assoc, Nat.add_comm 1 d]
      obtain ⟨w, n, hn, hreach⟩ := ih (s := { s with writes := s.writes + 1 }) hpc (by simp) hnext
      exact ⟨w, n, hn, (Reaches.of_step hstep).trans hreach⟩
    · exact ⟨s.writes, n, hn, Reaches.refl s⟩

structure SameTurn (s s' : Sending) : Prop where
  more : s'.more = s.more
  bytes : s'.result.bytes = s.result.bytes
  packetOut : s'.packetOut = s.packetOut
  selects : s'.selects = s.selects

theorem writeBuffer_all (hquiet : env.Quiet) (req : TestRequest) (hpc : s.pc = .write length total) (htotal : total ≤ length)
    (hlength : length ≤ s.packetOut.length) :
    ∃ s', Reaches env req s (bufferWritten env s' length length) ∧ SameTurn s s' ∧
      s'.sent.length = s.sent.length + (length - total) := by
  -- on what is left of the buffer, which every write shortens
  induction hleft : length - total using Nat.strong_induction_on generalizing s total with
  | _ left ih =>
    obtain ⟨w, n, hn, hretry⟩ := write_retried hquiet req hpc
    have hstep := step_of_write env req (s := { s with writes := w }) hpc
    unfold wrote at hstep
    simp only [hn] at hstep
    generalize hcount : min (n + 1) (min (length - total) maxRwCount) = count at hstep
    have hmax : 0 < maxRwCount := by decide
    have htaken : (s.sent ++ (s.packetOut.drop total).take count).length = s.sent.length + count := by
      rw [length_append, length_take, length_drop]
      omega
    split_ifs at hstep with hmore
    · have hagain : ({ s with
          pc := .write length (total + count)
          writes := w + 1
          sent := s.sent ++ (s.packetOut.drop total).take count } : Sending).pc = .write length (total + count) := rfl
      obtain ⟨s', hreach, hsame, hsent⟩ :=
        ih (length - (total + count)) (by omega) hagain hmore.2.le hlength rfl
      refine ⟨s', hretry.trans ((Reaches.of_step hstep).trans hreach),
        ⟨hsame.more, hsame.bytes, hsame.packetOut, hsame.selects⟩, ?_⟩
      rw [hsent, htaken]
      omega
    · have hall : total + count = length := by omega
      rw [hall] at hstep
      refine ⟨_, hretry.trans (Reaches.of_step hstep), ⟨rfl, rfl, rfl, rfl⟩, ?_⟩
      rw [htaken]
      omega

def readyBefore (env : Env) (j : ℕ) : ℕ :=
  (range j).countP fun i => (env.select i).isReady

theorem readyBefore_succ (env : Env) (j : ℕ) :
    readyBefore env (j + 1) = readyBefore env j + if (env.select j).isReady then 1 else 0 := by
  rw [readyBefore, range_succ, countP_append, readyBefore]
  simp [countP_singleton]

theorem readyBefore_mono (env : Env) {i j : ℕ} (h : i ≤ j) : readyBefore env i ≤ readyBefore env j := by
  induction j, h using Nat.le_induction with
  | base => exact le_rfl
  | succ j _ ih =>
    rw [readyBefore_succ]
    omega

def Fresh (env : Env) (k : ℕ) (s : Sending) : Prop := ∀ i < s.selects, readyBefore env i < k

theorem Fresh.isReady {env : Env} {k : ℕ} {s : Sending} (h : Fresh env k s)
    (hcount : readyBefore env s.selects = k) (hready : (env.select s.selects).isReady) {j : ℕ}
    (hj : readyBefore env j = k) : (env.select j).isReady := by
  -- no other call of `select` comes after as many ready ones
  rcases Nat.lt_trichotomy j s.selects with hbefore | rfl | hafter
  · exact absurd hj (h j hbefore).ne
  · exact hready
  · have hmono := readyBefore_mono env (Nat.succ_le_of_lt hafter)
    rw [Nat.succ_eq_add_one, readyBefore_succ, if_pos hready, hcount] at hmono
    omega

structure At (env : Env) (req : TestRequest) (pc : Pc) (more : Bool) (k j : ℕ) (s : Sending) :
    Prop where
  pc : s.pc = pc
  more : s.more = more
  bytes : s.result.bytes.toNat = k * req.writeSize.toNat
  sent : s.sent.length = k * req.writeSize.toNat
  buffer : s.packetOut.length = req.writeSize.toNat
  ready : readyBefore env s.selects = j

section

variable {more : Bool} {k j : ℕ}

theorem sub_bytes_lt_iff (hbytes : s.result.bytes.toNat = k * req.writeSize.toNat)
    (hle : k * req.writeSize.toNat ≤ req.bytes.toNat) :
    (req.bytes - s.result.bytes).toNat = req.bytes.toNat - k * req.writeSize.toNat ∧
      (req.bytes - s.result.bytes < req.writeSize.toUInt64 ↔ req.bytes.toNat < (k + 1) * req.writeSize.toNat) := by
  have hsub : (req.bytes - s.result.bytes).toNat = req.bytes.toNat - k * req.writeSize.toNat := by
    rw [UInt64.toNat_sub_of_le _ _ (UInt64.le_iff_toNat_le.mpr (by rwa [hbytes])), hbytes]
  refine ⟨hsub, ?_⟩
  rw [UInt64.lt_iff_toNat_lt, hsub, UInt32.toNat_toUInt64, Nat.add_mul, Nat.one_mul]
  omega

theorem turn_last (hduration : req.duration = 0) (hpos : req.bytes ≠ 0) (hle : k * req.writeSize.toNat ≤ req.bytes.toNat)
    (hlt : req.bytes.toNat < (k + 1) * req.writeSize.toNat) (h : At env req .turn more k j s) :
    At env req (.select (req.bytes.toNat - k * req.writeSize.toNat)) false k j (step env req s) := by
  obtain ⟨hsub, hiff⟩ := sub_bytes_lt_iff h.bytes hle
  have hbytes : 0 < req.bytes := UInt64.pos_iff_ne_zero.mpr hpos
  rw [step_of_turn env req h.pc, turn]
  simp only [hduration, hiff.mpr hlt, hbytes, and_self, if_true, hsub]
  exact ⟨rfl, rfl, h.bytes, h.sent, h.buffer, h.ready⟩

theorem turn_whole (hduration : req.duration = 0)
    (hle : (k + 1) * req.writeSize.toNat ≤ req.bytes.toNat) (h : At env req .turn more k j s) :
    At env req (.select req.writeSize.toNat) more k j (step env req s) := by
  obtain ⟨-, hiff⟩ := sub_bytes_lt_iff h.bytes ((Nat.mul_le_mul_right _ k.le_succ).trans hle)
  rw [step_of_turn env req h.pc, turn]
  simp only [hduration, if_false, hiff, not_lt.mpr hle, and_false]
  exact ⟨rfl, h.more, h.bytes, h.sent, h.buffer, h.ready⟩

theorem selects_turn (env : Env) (hduration : req.duration = 0) (hpc : s.pc = .turn) : (step env req s).selects = s.selects := by
  rw [step_of_turn env req hpc, turn]
  simp only [hduration]
  split_ifs <;> rfl

theorem select_ready (h : At env req (.select bytesToSend) more k j s)
    (hfits : bytesToSend ≤ req.writeSize.toNat) (hready : (env.select s.selects).isReady) :
    At env req (.write bytesToSend 0) more k (j + 1) (step env req s) ∧ Fresh env (j + 1) (step env req s) := by
  have hcount := readyBefore_succ env s.selects
  rw [if_pos hready, h.ready] at hcount
  rw [step_of_select env req h.pc, selected]
  cases hreply : env.select s.selects with
  | ready fill =>
    refine ⟨⟨rfl, h.more, h.bytes, h.sent, length_preparePacket h.buffer fill hfits, hcount⟩, ?_⟩
    intro i hi
    have hmono := readyBefore_mono env (Nat.le_of_lt_succ hi)
    rw [h.ready] at hmono
    omega
  | _ =>
    rw [hreply] at hready
    cases hready

theorem select_interrupted (h : At env req (.select bytesToSend) more k j s) (hint : env.select s.selects = .interrupted) :
    ∃ s', step env req s = loopEnd env s' ∧ s'.selects = s.selects + 1 ∧ At env req (.select bytesToSend) more k j s' := by
  have hcount := readyBefore_succ env s.selects
  have hnot : SelectReply.interrupted.isReady = false := rfl
  rw [hint, hnot, if_neg Bool.false_ne_true, Nat.add_zero, h.ready] at hcount
  refine ⟨{ s with selects := s.selects + 1 }, ?_, rfl, h.pc, h.more, h.bytes, h.sent, h.buffer, hcount⟩
  rw [step_of_select env req h.pc, selected, hint]

theorem turn_retried (hquiet : env.Quiet) (hduration : req.duration = 0)
    (hle : (k + 1) * req.writeSize.toNat ≤ req.bytes.toNat) (h : At env req .turn true k j s) :
    ∃ s', Reaches env req s s' ∧ At env req (.write req.writeSize.toNat 0) true k (j + 1) s' ∧ Fresh env (j + 1) s' := by
  obtain ⟨i, hi, hne⟩ := hquiet.selectLater s.selects
  obtain ⟨d, rfl⟩ := Nat.exists_eq_add_of_le hi
  induction d using Nat.strong_induction_on generalizing s with
  | _ d ih =>
    have hturn := turn_whole hduration hle h
    have hselects := selects_turn env hduration h.pc
    rcases hquiet.select s.selects with hint | hready
    · obtain ⟨s', hstep, hcalls, hs'⟩ := select_interrupted hturn (by rwa [hselects])
      have hloop : loopEnd env s' = { s' with pc := .turn } := if_pos hs'.more
      rw [hselects] at hcalls
      obtain ⟨d, rfl⟩ : ∃ d', d = d' + 1 := by
        refine Nat.exists_eq_succ_of_ne_zero fun hzero => hne ?_
        rw [hzero]
        exact hint
      have hagain : At env req .turn true k j { s' with pc := .turn } :=
        ⟨rfl, hs'.more, hs'.bytes, hs'.sent, hs'.buffer, hs'.ready⟩
      obtain ⟨t, hreach, ht⟩ := ih d (by omega) hagain (by simp)
        (by simpa only [hcalls, Nat.add_assoc, Nat.add_comm 1 d] using hne)
      exact ⟨t, (Reaches.of_step rfl).trans ((Reaches.of_step (hstep.trans hloop)).trans hreach), ht⟩
    · exact ⟨_, (Reaches.of_step rfl).trans (Reaches.of_step rfl), select_ready hturn le_rfl (by rwa [hselects])⟩

structure Written (env : Env) (req : TestRequest) (more : Bool) (k j length : ℕ) (s : Sending) :
    Prop where
  more : s.more = more
  bytes : s.result.bytes.toNat = k * req.writeSize.toNat
  sent : s.sent.length = k * req.writeSize.toNat + length
  buffer : s.packetOut.length = req.writeSize.toNat
  ready : readyBefore env s.selects = j

theorem written_all (hquiet : env.Quiet) (hfits : length ≤ req.writeSize.toNat) (h : At env req (.write length 0) more k j s) :
    ∃ s', Reaches env req s (bufferWritten env s' length length) ∧
      Written env req more k j length s' ∧ s'.selects = s.selects := by
  obtain ⟨s', hreach, hsame, hsent⟩ :=
    writeBuffer_all hquiet req h.pc (Nat.zero_le _) (by rwa [h.buffer])
  refine ⟨s', hreach, ⟨hsame.more.trans h.more, ?_, ?_, ?_, ?_⟩, hsame.selects⟩
  · rw [hsame.bytes, h.bytes]
  · rw [hsent, h.sent, Nat.sub_zero]
  · rw [hsame.packetOut, h.buffer]
  · rw [hsame.selects, h.ready]

theorem bufferWritten_long (hmin : 2 ^ 31 ≤ length) (hmax : length < 2 ^ 32) :
    bufferWritten env s length length = finish env s := by
  have hneg : writeBufferResult length length < 0 := by
    rw [writeBufferResult, if_neg (not_not.mpr rfl), int32]
    omega
  rw [bufferWritten, if_pos hneg]

theorem toNat_ofInt (hmax : length < 2 ^ 31) : (UInt64.ofInt length).toNat = length := by
  have hmod : ((length : ℤ) % 2 ^ 64).toNat = length := by omega
  rw [UInt64.ofInt, hmod, UInt64.toNat_ofNat_of_lt']
  exact Nat.lt_of_lt_of_le hmax (by decide)

theorem bufferWritten_short (env : Env) (hmax : length < 2 ^ 31) (hbytes : s.result.bytes.toNat + length < 2 ^ 64) :
    ∃ result : TestResult, bufferWritten env s length length = loopEnd env { s with result } ∧
      result.bytes.toNat = s.result.bytes.toNat + length := by
  have hresult : writeBufferResult length length = length := by
    rw [writeBufferResult, if_neg (not_not.mpr rfl), int32_of_range (by omega)]
  refine ⟨_, by rw [bufferWritten, hresult, if_neg (by omega)], ?_⟩
  dsimp only
  rw [UInt64.toNat_add, toNat_ofInt hmax, Nat.mod_eq_of_lt hbytes]

theorem buffer_sent (hquiet : env.Quiet) (hduration : req.duration = 0) (hsize : req.writeSize.toNat < 2 ^ 31)
    (hle : (k + 1) * req.writeSize.toNat ≤ req.bytes.toNat) (h : At env req .turn true k k s) :
    ∃ s', Reaches env req s s' ∧ At env req .turn true (k + 1) (k + 1) s' ∧ Fresh env (k + 1) s' := by
  obtain ⟨t, hready, ht, hfresh⟩ := turn_retried hquiet hduration hle h
  obtain ⟨u, hwritten, hu, hselects⟩ := written_all hquiet le_rfl ht
  have hbytes := req.bytes.toNat_lt
  rw [Nat.add_mul, Nat.one_mul] at hle
  obtain ⟨result, hbuffer, hresult⟩ := bufferWritten_short env hsize (by rw [hu.bytes]; omega)
  rw [hbuffer, show loopEnd env { u with result } = { u with result, pc := .turn } from
    if_pos hu.more] at hwritten
  refine ⟨_, hready.trans hwritten, ⟨rfl, hu.more, ?_, ?_, hu.buffer, hu.ready⟩, ?_⟩
  · rw [hresult, hu.bytes, Nat.add_mul, Nat.one_mul]
  · rw [hu.sent, Nat.add_mul, Nat.one_mul]
  · intro i hi
    exact hfresh i (by rwa [← hselects])

theorem at_start (env : Env) (hpos : req.bytes ≠ 0) : At env req .turn true 0 0 (start env req) := by
  have hend : HasEnd req := fun h => hpos h.1
  refine ⟨if_pos hend, rfl, ?_, ?_, length_replicate, rfl⟩
  · simp [start]
  · simp [start]

theorem buffers_sent (hquiet : env.Quiet) (hpos : req.bytes ≠ 0) (hduration : req.duration = 0)
    (hsize : req.writeSize.toNat < 2 ^ 31) (k : ℕ)
    (hle : k * req.writeSize.toNat ≤ req.bytes.toNat) :
    ∃ s, Reaches env req (start env req) s ∧ At env req .turn true k k s ∧ Fresh env k s := by
  induction k with
  | zero => exact ⟨_, Reaches.refl _, at_start env hpos, fun i hi => absurd hi (Nat.not_lt_zero i)⟩
  | succ k ih =>
    obtain ⟨s, hreach, hs, -⟩ := ih ((Nat.mul_le_mul_right _ k.le_succ).trans hle)
    obtain ⟨s', hreach', hs', hfresh⟩ := buffer_sent hquiet hduration hsize hle hs
    exact ⟨s', hreach.trans hreach', hs', hfresh⟩

structure Ended (bytes sent : ℕ) (s : Sending) : Prop where
  returned : s.pc = .returned 0
  bytes : s.result.bytes.toNat = bytes
  sent : s.sent.length = sent

theorem last_interrupted (hduration : req.duration = 0) (hpos : req.bytes ≠ 0) (hle : k * req.writeSize.toNat ≤ req.bytes.toNat)
    (hlt : req.bytes.toNat < (k + 1) * req.writeSize.toNat) (h : At env req .turn more k j s)
    (hint : env.select s.selects = .interrupted) :
    ∃ s', Reaches env req s s' ∧ Ended (k * req.writeSize.toNat) (k * req.writeSize.toNat) s' := by
  have hturn := turn_last hduration hpos hle hlt h
  obtain ⟨s', hstep, -, hs'⟩ := select_interrupted hturn (by rwa [selects_turn env hduration h.pc])
  have hloop : loopEnd env s' = finish env s' := if_neg (by rw [hs'.more]; exact Bool.false_ne_true)
  exact ⟨finish env s', (Reaches.of_step rfl).trans (Reaches.of_step (hstep.trans hloop)),
    rfl, hs'.bytes, hs'.sent⟩

theorem last_ready (hquiet : env.Quiet) (hduration : req.duration = 0) (hpos : req.bytes ≠ 0)
    (hle : k * req.writeSize.toNat ≤ req.bytes.toNat)
    (hlt : req.bytes.toNat < (k + 1) * req.writeSize.toNat) (h : At env req .turn more k j s)
    (hready : (env.select s.selects).isReady) :
    ∃ s', Reaches env req s s' ∧ Ended (if req.bytes.toNat - k * req.writeSize.toNat < 2 ^ 31 then req.bytes.toNat
        else k * req.writeSize.toNat) req.bytes.toNat s' := by
  have hturn := turn_last hduration hpos hle hlt h
  have hmax := req.writeSize.toNat_lt
  have hbytes := req.bytes.toNat_lt
  rw [Nat.add_mul, Nat.one_mul] at hlt
  obtain ⟨ht, -⟩ := select_ready hturn (by omega) (by rwa [selects_turn env hduration h.pc])
  obtain ⟨u, hwritten, hu, -⟩ := written_all hquiet (by omega) ht
  have hreach := (Reaches.of_step rfl).trans ((Reaches.of_step rfl).trans hwritten)
  split_ifs with hshort
  · obtain ⟨result, hbuffer, hresult⟩ := bufferWritten_short env hshort (by rw [hu.bytes]; omega)
    rw [hbuffer, show loopEnd env { u with result } = finish env { u with result } from
      if_neg (by rw [hu.more]; exact Bool.false_ne_true)] at hreach
    refine ⟨_, hreach, rfl, ?_, ?_⟩
    · rw [finish, hresult, hu.bytes]
      omega
    · rw [finish, hu.sent]
      omega
  · rw [bufferWritten_long (by omega) (by omega)] at hreach
    refine ⟨_, hreach, rfl, hu.bytes, ?_⟩
    rw [finish, hu.sent]
    omega

end

def Exact (req : TestRequest) (s : Sending) : Prop := Ended req.bytes.toNat req.bytes.toNat s

theorem iterate_returned (h : s.pc = .returned status) (n : ℕ) : (step env req)^[n] s = s :=
  iterate_fixed (by rw [step, h]) n

theorem returned_unique {t : Sending} {m n : ℕ} {status' : ℤ} (hs : (step env req)^[m] s = t)
    (ht : t.pc = .returned status) (hn : ((step env req)^[n] s).pc = .returned status') :
    (step env req)^[n] s = t := by
  rcases Nat.le_total m n with hle | hle
  · obtain ⟨d, rfl⟩ := Nat.exists_eq_add_of_le hle
    rw [Nat.add_comm, iterate_add_apply, hs, iterate_returned ht]
  · obtain ⟨d, rfl⟩ := Nat.exists_eq_add_of_le hle
    rw [Nat.add_comm, iterate_add_apply, iterate_returned hn] at hs
    exact hs

theorem exact_iff_of_ended {bytes sent : ℕ} (h : ∃ s', Reaches env req (start env req) s' ∧ Ended bytes sent s') :
    (∃ n, Exact req (sendStream env req n)) ↔ bytes = req.bytes.toNat ∧ sent = req.bytes.toNat := by
  obtain ⟨s', ⟨m, hm⟩, hs'⟩ := h
  constructor
  · rintro ⟨n, hn⟩
    have heq := returned_unique hm hs'.returned hn.returned
    rw [sendStream, heq] at hn
    exact ⟨hs'.bytes.symm.trans hn.bytes, hs'.sent.symm.trans hn.sent⟩
  · rintro ⟨rfl, rfl⟩
    exact ⟨m, by rw [sendStream, hm]; exact hs'⟩

def Idle (s : Sending) : Prop :=
  s.more = true ∧ (s.pc = .turn ∨ s.pc = .select 0 ∨ s.pc = .write 0 0)

theorem idle_step (hquiet : env.Quiet) (hduration : req.duration = 0) (hsize : req.writeSize = 0)
    (h : Idle s) : Idle (step env req s) := by
  obtain ⟨hmore, hpc | hpc | hpc⟩ := h
  · rw [step_of_turn env req hpc, turn]
    have hnot : ¬req.bytes - s.result.bytes < UInt32.toUInt64 0 := by
      rw [UInt64.lt_iff_toNat_lt]
      exact Nat.not_lt_zero _
    simp only [hduration, hsize, hnot, and_false, if_false]
    exact ⟨hmore, Or.inr (Or.inl rfl)⟩
  · rw [step_of_select env req hpc, selected]
    rcases hquiet.select s.selects with hint | hready
    · rw [hint]
      dsimp only
      rw [loopEnd, if_pos hmore]
      exact ⟨hmore, Or.inl rfl⟩
    · cases hreply : env.select s.selects with
      | ready fill => exact ⟨hmore, Or.inr (Or.inr rfl)⟩
      | _ =>
        rw [hreply] at hready
        cases hready
  · rw [step_of_write env req hpc, wrote]
    rcases hquiet.write s.writes with hint | ⟨n, hn⟩
    · rw [hint]
      exact ⟨hmore, Or.inr (Or.inr hpc)⟩
    · rw [hn]
      simp only [Nat.sub_self, Nat.zero_min, Nat.min_zero, lt_irrefl, false_and, if_false]
      have hresult : ¬writeBufferResult 0 0 < 0 := by decide
      rw [bufferWritten, if_neg hresult, loopEnd, if_pos hmore]
      exact ⟨hmore, Or.inl rfl⟩

theorem idle_sendStream (hquiet : env.Quiet) (hpos : req.bytes ≠ 0) (hduration : req.duration = 0)
    (hsize : req.writeSize = 0) (n : ℕ) : Idle (sendStream env req n) := by
  induction n with
  | zero => exact ⟨rfl, Or.inl (at_start env hpos).pc⟩
  | succ n ih =>
    rw [sendStream, iterate_succ_apply']
    exact idle_step hquiet hduration hsize ih

theorem ended_cases (hquiet : env.Quiet) (hpos : req.bytes ≠ 0) (hduration : req.duration = 0) (hsize : 0 < req.writeSize.toNat)
    (hshort : req.bytes.toNat < 2 ^ 31 ∨ req.writeSize.toNat < 2 ^ 31) :
    ∃ s, Reaches env req (start env req) s ∧ ((Ended req.bytes.toNat req.bytes.toNat s ∧
          ∀ j, readyBefore env j = req.bytes.toNat / req.writeSize.toNat → (env.select j).isReady) ∨
        (Ended (req.bytes.toNat / req.writeSize.toNat * req.writeSize.toNat)
            (req.bytes.toNat / req.writeSize.toNat * req.writeSize.toNat) s ∧
          ∃ j, readyBefore env j = req.bytes.toNat / req.writeSize.toNat ∧ ¬(env.select j).isReady)) := by
  generalize hk : req.bytes.toNat / req.writeSize.toNat = k
  have hle : k * req.writeSize.toNat ≤ req.bytes.toNat := hk ▸ Nat.div_mul_le_self ..
  have hlt : req.bytes.toNat < (k + 1) * req.writeSize.toNat :=
    hk ▸ Nat.lt_mul_of_div_lt (Nat.lt_succ_self _) hsize
  obtain ⟨s, hreach, hs, hfresh⟩ : ∃ s, Reaches env req (start env req) s ∧ At env req .turn true k k s ∧ Fresh env k s := by
    by_cases hbuffer : req.writeSize.toNat < 2 ^ 31
    · exact buffers_sent hquiet hpos hduration hbuffer k hle
    · obtain rfl : k = 0 := by
        rw [← hk, Nat.div_eq_of_lt]
        omega
      exact ⟨_, Reaches.refl _, at_start env hpos, fun i hi => absurd hi (Nat.not_lt_zero i)⟩
  rcases hquiet.select s.selects with hint | hready
  · obtain ⟨s', hreach', hs'⟩ := last_interrupted hduration hpos hle hlt hs hint
    exact ⟨s', hreach.trans hreach', Or.inr ⟨hs', s.selects, hs.ready, by rw [hint]; decide⟩⟩
  · obtain ⟨s', hreach', hs'⟩ := last_ready hquiet hduration hpos hle hlt hs hready
    rw [if_pos (by rw [Nat.add_mul, Nat.one_mul] at hlt; omega)] at hs'
    exact ⟨s', hreach.trans hreach', Or.inl ⟨hs', fun j hj => hfresh.isReady hs.ready hready hj⟩⟩

theorem ended_long (hquiet : env.Quiet) (hpos : req.bytes ≠ 0) (hduration : req.duration = 0)
    (hbytes : 2 ^ 31 ≤ req.bytes.toNat) (hsize : 2 ^ 31 ≤ req.writeSize.toNat) :
    ∃ s sent, Reaches env req (start env req) s ∧ Ended 0 sent s := by
  have hmax := req.writeSize.toNat_lt
  have hstart := at_start env hpos
  rcases Nat.lt_or_ge req.bytes.toNat req.writeSize.toNat with hlt | hge
  · have hle : 0 * req.writeSize.toNat ≤ req.bytes.toNat := by omega
    have hlast : req.bytes.toNat < (0 + 1) * req.writeSize.toNat := by omega
    rcases hquiet.select (start env req).selects with hint | hready
    · obtain ⟨s, hreach, hs⟩ := last_interrupted hduration hpos hle hlast hstart hint
      exact ⟨s, _, hreach, by simpa using hs⟩
    · obtain ⟨s, hreach, hs⟩ := last_ready hquiet hduration hpos hle hlast hstart hready
      rw [if_neg (by omega), Nat.zero_mul] at hs
      exact ⟨s, _, hreach, hs⟩
  · obtain ⟨t, hready, ht, -⟩ := turn_retried hquiet hduration (by omega) hstart
    obtain ⟨u, hwritten, hu, -⟩ := written_all hquiet le_rfl ht
    rw [bufferWritten_long hsize hmax] at hwritten
    exact ⟨_, _, hready.trans hwritten, rfl, hu.bytes.trans (Nat.zero_mul _), rfl⟩

end

theorem returned_iff_not_endless {env : Env} {req : TestRequest} (hquiet : env.Quiet) (hpos : req.bytes ≠ 0)
    (hduration : req.duration = 0) :
    (∃ n, (sendStream env req n).pc = .returned 0) ↔ ¬ Endless req := by
  by_cases hsize : req.writeSize = 0
  · refine iff_of_false ?_ fun h => h ⟨hpos, hduration, hsize⟩
    rintro ⟨n, hn⟩
    obtain ⟨-, hpc | hpc | hpc⟩ := idle_sendStream hquiet hpos hduration hsize n
    all_goals rw [hn] at hpc; cases hpc
  have hsizePos : 0 < req.writeSize.toNat :=
    Nat.pos_of_ne_zero fun h => hsize (UInt32.toNat_inj.mp h)
  refine iff_of_true ?_ fun h => hsize h.2.2
  obtain ⟨s, bytes, sent, ⟨n, hn⟩, hs⟩ : ∃ s bytes sent, Reaches env req (start env req) s ∧
      Ended bytes sent s := by
    by_cases hshort : req.bytes.toNat < 2 ^ 31 ∨ req.writeSize.toNat < 2 ^ 31
    · obtain ⟨s, hreach, ⟨hs, -⟩ | ⟨hs, -⟩⟩ := ended_cases hquiet hpos hduration hsizePos hshort
      · exact ⟨s, _, _, hreach, hs⟩
      · exact ⟨s, _, _, hreach, hs⟩
    · rw [not_or, not_lt, not_lt] at hshort
      obtain ⟨s, sent, hreach, hs⟩ := ended_long hquiet hpos hduration hshort.1 hshort.2
      exact ⟨s, _, sent, hreach, hs⟩
  exact ⟨n, by rw [sendStream, hn]; exact hs.returned⟩

/-- Limited by its bytes, with calls that are only interrupted: exactly if the buffer is not
empty, its size is an `int` when used and the turn of the last, shorter buffer is not interrupted.
-/
theorem sendStream_exact_iff {env : Env} {req : TestRequest} (hquiet : env.Quiet)
    (hpos : req.bytes ≠ 0) (hduration : req.duration = 0) :
    (∃ n, Exact req (sendStream env req n)) ↔ req.writeSize ≠ 0 ∧ (req.bytes.toNat < 2 ^ 31 ∨ req.writeSize.toNat < 2 ^ 31) ∧
        (req.writeSize.toNat ∣ req.bytes.toNat ∨ ∀ j, readyBefore env j = req.bytes.toNat / req.writeSize.toNat →
            (env.select j).isReady) := by
  by_cases hsize : req.writeSize = 0
  · refine iff_of_false ?_ fun h => h.1 hsize
    rintro ⟨n, hn⟩
    exact (returned_iff_not_endless hquiet hpos hduration).mp ⟨n, hn.returned⟩ ⟨hpos, hduration, hsize⟩
  have hsizePos : 0 < req.writeSize.toNat :=
    Nat.pos_of_ne_zero fun h => hsize (UInt32.toNat_inj.mp h)
  by_cases hshort : req.bytes.toNat < 2 ^ 31 ∨ req.writeSize.toNat < 2 ^ 31
  · obtain ⟨s, hreach, ⟨hs, hready⟩ | ⟨hs, j, hj, hint⟩⟩ :=
      ended_cases hquiet hpos hduration hsizePos hshort
    · rw [exact_iff_of_ended ⟨s, hreach, hs⟩]
      exact iff_of_true ⟨rfl, rfl⟩ ⟨hsize, hshort, Or.inr hready⟩
    · rw [exact_iff_of_ended ⟨s, hreach, hs⟩]
      constructor
      · rintro ⟨hmul, -⟩
        exact ⟨hsize, hshort, Or.inl ⟨_, (hmul.symm.trans (Nat.mul_comm _ _))⟩⟩
      · rintro ⟨-, -, hdvd | hready⟩
        · exact ⟨Nat.div_mul_cancel hdvd, Nat.div_mul_cancel hdvd⟩
        · exact absurd (hready j hj) hint
  · rw [not_or, not_lt, not_lt] at hshort
    obtain ⟨s, sent, hreach, hs⟩ := ended_long hquiet hpos hduration hshort.1 hshort.2
    rw [exact_iff_of_ended ⟨s, hreach, hs⟩]
    refine iff_of_false ?_ ?_
    · rintro ⟨hzero, -⟩
      omega
    · rintro ⟨-, hlt | hlt, -⟩
      · omega
      · omega

def threeBytes : TestRequest := ⟨.clientToServer, 3, 0, 2, 0, .none⟩

def readyEnv : Env := ⟨fun _ => 0, fun _ => .ready [], fun _ => .room 0, none⟩

theorem quiet_readyEnv : readyEnv.Quiet where
  select := fun _ => Or.inr rfl
  write := fun _ => Or.inr ⟨0, rfl⟩
  selectLater := fun i => ⟨i, le_rfl, SelectReply.noConfusion⟩
  writeLater := fun i => ⟨i, le_rfl, WriteReply.noConfusion⟩

theorem three_bytes_sent : ∃ n, Exact threeBytes (sendStream readyEnv threeBytes n) :=
  (sendStream_exact_iff quiet_readyEnv (by decide) rfl).mpr ⟨by decide, Or.inl (by decide), Or.inr fun _ _ => rfl⟩

def interruptedEnv : Env :=
  { readyEnv with
    select := fun
      | 1 => .interrupted
      | _ => .ready [] }

theorem quiet_interruptedEnv : interruptedEnv.Quiet where
  select := fun
    | 0 => Or.inr rfl
    | 1 => Or.inl rfl
    | _ + 2 => Or.inr rfl
  write := fun _ => Or.inr ⟨0, rfl⟩
  selectLater := fun i => ⟨i + 2, by omega, SelectReply.noConfusion⟩
  writeLater := fun i => ⟨i, le_rfl, WriteReply.noConfusion⟩

theorem last_byte_not_sent : interruptedEnv.Quiet ∧ (sendStream interruptedEnv threeBytes 6).pc = .returned 0 ∧
    (sendStream interruptedEnv threeBytes 6).result.bytes = 2 ∧
    ¬∃ n, Exact threeBytes (sendStream interruptedEnv threeBytes n) := by
  have hended : Ended 2 2 (sendStream interruptedEnv threeBytes 6) :=
    ⟨by decide, by decide, by decide⟩
  refine ⟨quiet_interruptedEnv, hended.returned, by decide, ?_⟩
  rw [exact_iff_of_ended ⟨_, ⟨6, rfl⟩, hended⟩]
  decide

theorem http_chunks_iff (fill data : CStr) (size : ℕ) (randomise : Bool) (env : Env) (req : TestRequest) (n : ℕ) :
    (6 ≤ size → size < 2 ^ 32 → size ≤ data.length →
      (IsChunk ((addHttpChunkHeader fill data size randomise).take size) ↔ WellSized size)) ∧
    (req.protocol = .httpPost → (∀ p ∈ (sendStream env req n).body, p = [] ∨ 6 ≤ p.length) →
      (IsBody (sendStream env req n).body.flatten ↔ ∀ p ∈ (sendStream env req n).body, WellSized p.length)) := by
  constructor
  · intro hmin hmax hfit
    exact isChunk_addHttpChunkHeader fill randomise (by omega) hmax hfit
  · intro hproto hsizes
    obtain ⟨-, -, hshort, hchunks⟩ := sound_sendStream env req n
    exact isBody_writes_iff (hchunks hproto) fun p hp => ⟨hsizes p hp, hshort p hp⟩

def twoHundredBytes : TestRequest := ⟨.clientToServer, 200, 0, 200, 0, .httpPost⟩

theorem two_hundred_bytes_chunked : IsChunk ((addHttpChunkHeader [] (replicate 35 0) 35 false).take 35) ∧
    IsBody (sendStream readyEnv twoHundredBytes 2).body.flatten := by
  have hbody : ∀ p ∈ (sendStream readyEnv twoHundredBytes 2).body, p.length = 35 := by
    intro p hp
    have hlength : (preparePacket twoHundredBytes (sendStream readyEnv twoHundredBytes 1) [] 200).length
        = 200 := length_preparePacket (sound_sendStream ..).buffer [] le_rfl
    have hp : p = ((preparePacket twoHundredBytes (sendStream readyEnv twoHundredBytes 1) [] 200).take
        200).drop headers.length := mem_singleton.mp hp
    rw [hp, length_drop, length_take, hlength, length_headers]
    decide
  obtain ⟨hbuffer, hwrites⟩ :=
    http_chunks_iff [] (replicate 35 0) 35 false readyEnv twoHundredBytes 2
  refine ⟨(hbuffer (by decide) (by decide) (by simp)).mpr (by decide), (hwrites rfl fun p hp => Or.inr ?_).mpr fun p hp => ?_⟩
  · rw [hbody p hp]
    decide
  · rw [hbody p hp]
    decide

theorem default_write_no_chunk : ¬IsChunk ((addHttpChunkHeader [] (replicate 131072 0) 131072 false).take 131072) ∧
    ¬IsChunk ((addHttpChunkHeader [] (replicate 21 0) 21 false).take 21) := by
  constructor
  · rw [isChunk_addHttpChunkHeader [] false (by decide) (by decide) length_replicate.ge]
    decide
  · rw [isChunk_addHttpChunkHeader [] false (by decide) (by decide) (by simp)]
    decide

end Amplet.ThroughputSending
