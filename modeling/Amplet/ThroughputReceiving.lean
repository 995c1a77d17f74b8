import Amplet.ThroughputSending

/-!
# Receiving a throughput stream

Embedding of `incomingTest` with `readBuffer` in
`src/tests/throughput/throughput_common.c`. The replies to `read` are of the kinds that
those to `write` are; the stream ends behind what the kernel took from the sender.
-/

namespace Amplet.ThroughputReceiving
open List Bytes SignedWords ThroughputSchedule ThroughputSending

def defaultWriteSize : ℕ := 128 * 1024

def received (clock : ℕ → UInt64) (clocks : ℕ) (result : TestResult) : TestResult :=
  if 0 < result.bytes then { result with endNs := clock clocks } else result

def incomingTest (clock : ℕ → UInt64) : List WriteReply → ℕ → CStr → TestResult → Option TestResult
  | [], _, _, _ => none
  | .interrupted :: replies, clocks, stream, result => incomingTest clock replies clocks stream result
  | .failed :: _, clocks, _, result => some (received clock clocks result)
  | .room n :: replies, clocks, stream, result =>
    let bytesRead := min (n + 1) (min stream.length defaultWriteSize)
    if 0 < bytesRead then
      let first := result.bytes = 0
      incomingTest clock replies (if first then clocks + 1 else clocks) (stream.drop bytesRead)
        { result with
          startNs := if first then clock clocks else result.startNs
          bytes := result.bytes + UInt64.ofNat bytesRead }
    else some (received clock clocks result)

/-- The bytes of a buffer that the kernel took and the sender did not count. -/
def Uncounted (env : Env) (req : TestRequest) (lost : ℕ) : Pc → Prop
  | .write _ total => lost = total
  | .returned _ => lost ≤ req.writeSize.toNat ∧
      (lost ≠ 0 → (∃ i, env.write i = .failed) ∨ 2 ^ 31 ≤ req.writeSize.toNat)
  | _ => lost = 0

def Counted (env : Env) (req : TestRequest) (s : Sending) : Prop :=
  ∃ lost, Uncounted env req lost s.pc ∧ UInt64.ofNat s.sent.length = s.result.bytes + UInt64.ofNat lost

variable {env : Env} {req : TestRequest} {s : Sending} {length total : ℕ}

theorem uncounted_zero (env : Env) (req : TestRequest) (status : ℤ) :
    Uncounted env req 0 (.returned status) := ⟨Nat.zero_le _, fun hne => absurd rfl hne⟩

theorem counted_loopEnd (h : UInt64.ofNat s.sent.length = s.result.bytes + UInt64.ofNat 0) : Counted env req (loopEnd env s) := by
  rw [loopEnd]
  split_ifs
  · exact ⟨0, rfl, h⟩
  · exact ⟨0, uncounted_zero .., h⟩

theorem counted_bufferWritten (hfits : total ≤ length ∧ length ≤ req.writeSize.toNat)
    (h : UInt64.ofNat s.sent.length = s.result.bytes + UInt64.ofNat total)
    (hfailed : total ≠ length → ∃ i, env.write i = .failed) :
    Counted env req (bufferWritten env s length total) := by
  have hmax := req.writeSize.toNat_lt
  rw [bufferWritten, writeBufferResult]
  by_cases htotal : total = length
  · rw [if_neg (not_not.mpr htotal)]
    split_ifs with hneg
    · refine ⟨total, ⟨hfits.1.trans hfits.2, fun _ => Or.inr ?_⟩, h⟩
      simp only [int32] at hneg
      omega
    · have hint : int32 total = total := int32_of_range (by simp only [int32] at hneg; omega)
      refine counted_loopEnd ?_
      have hnat : UInt64.ofInt (total : ℤ) = UInt64.ofNat total := by
        rw [UInt64.ofInt, show (total : ℤ) % 2 ^ 64 = total by omega, Int.toNat_natCast]
      rw [hint, h, hnat]
      exact (UInt64.add_zero _).symm
  · rw [if_pos htotal, if_pos (by decide)]
    exact ⟨total, ⟨hfits.1.trans hfits.2, fun _ => Or.inl (hfailed htotal)⟩, h⟩

theorem counted_wrote (hsound : Sound req s) (hfits : total ≤ length ∧ length ≤ req.writeSize.toNat)
    (h : UInt64.ofNat s.sent.length = s.result.bytes + UInt64.ofNat total)
    (hpc : s.pc = .write length total) : Counted env req (wrote env s length total) := by
  unfold wrote
  cases hwrite : env.write s.writes with
  | interrupted => exact ⟨total, by rw [hpc]; rfl, h⟩
  | failed => exact counted_bufferWritten hfits h fun _ => ⟨_, hwrite⟩
  | room n =>
    dsimp only
    obtain ⟨count, hcount⟩ : ∃ count, count = min (n + 1) (min (length - total) maxRwCount) := ⟨_, rfl⟩
    have htaken : UInt64.ofNat (s.sent ++ (s.packetOut.drop total).take count).length =
        s.result.bytes + UInt64.ofNat (total + count) := by
      have hlength : ((s.packetOut.drop total).take count).length = count := by
        rw [length_take, length_drop, hsound.buffer]
        omega
      rw [length_append, hlength, UInt64.ofNat_add, UInt64.ofNat_add, h, UInt64.add_assoc]
    rw [← hcount]
    split_ifs with hmore
    · exact ⟨total + count, rfl, htaken⟩
    · refine counted_bufferWritten ⟨by omega, hfits.2⟩ htaken fun hne => absurd hmore ?_
      simp only [maxRwCount] at hcount
      omega

theorem counted_step (hsound : Sound req s) (h : Counted env req s) : Counted env req (step env req s) := by
  obtain ⟨lost, hlost, hsent⟩ := h
  have hfits := hsound.fits
  cases hpc : s.pc with
  | turn =>
    rw [hpc] at hlost
    obtain rfl : lost = 0 := hlost
    rw [step_of_turn env req hpc, turn]
    dsimp only
    split_ifs
    · exact ⟨0, uncounted_zero .., hsent⟩
    · exact ⟨0, rfl, hsent⟩
    · exact ⟨0, rfl, hsent⟩
  | select bytesToSend =>
    rw [hpc] at hlost
    obtain rfl : lost = 0 := hlost
    rw [step_of_select env req hpc]
    unfold selected
    split
    · exact ⟨0, uncounted_zero .., hsent⟩
    · exact counted_loopEnd hsent
    · exact ⟨0, uncounted_zero .., hsent⟩
    · exact ⟨0, rfl, hsent⟩
  | write length total =>
    rw [hpc] at hlost hfits
    obtain rfl : lost = total := hlost
    rw [step_of_write env req hpc]
    exact counted_wrote hsound hfits hsent hpc
  | returned =>
    rw [step, hpc]
    exact ⟨lost, hlost, hsent⟩

theorem counted_sendStream (env : Env) (req : TestRequest) (n : ℕ) : Counted env req (sendStream env req n) := by
  induction n with
  | zero =>
    refine ⟨0, ?_, rfl⟩
    simp only [sendStream, Function.iterate_zero, id_eq, start]
    split_ifs
    · rfl
    · exact uncounted_zero ..
  | succ n ih =>
    rw [sendStream, Function.iterate_succ_apply']
    exact counted_step (sound_sendStream env req n) ih

theorem incomingTest_counts (clock : ℕ → UInt64) (clocks : ℕ) (result : TestResult)
    {replies : List WriteReply} {stream : CStr} (hfailed : .failed ∉ replies)
    (henough : stream.length < replies.countP (· ≠ .interrupted)) :
    ∃ r, incomingTest clock replies clocks stream result = some r ∧ r.bytes = result.bytes + UInt64.ofNat stream.length := by
  induction replies generalizing clocks stream result with
  | nil => exact absurd henough (Nat.not_lt_zero _)
  | cons reply replies ih =>
    have hfailed' := fun h => hfailed (mem_cons_of_mem _ h)
    cases reply with
    | interrupted => exact ih _ _ hfailed' (by simpa using henough)
    | failed => exact absurd (mem_cons_self ..) hfailed
    | room n =>
      rw [countP_cons_of_pos rfl] at henough
      rw [incomingTest]
      dsimp only
      obtain ⟨count, hcount⟩ : ∃ count, count = min (n + 1) (min stream.length defaultWriteSize) :=
        ⟨_, rfl⟩
      rw [← hcount]
      simp only [defaultWriteSize] at hcount
      have hdrop : (stream.drop count).length + count = stream.length := by
        rw [length_drop]
        omega
      by_cases hpos : 0 < count
      · rw [if_pos hpos]
        obtain ⟨r, hr, hbytes⟩ := ih _ _ hfailed' (show (stream.drop count).length < _ by omega)
        refine ⟨r, hr, hbytes.trans ?_⟩
        rw [← hdrop, Nat.add_comm, UInt64.ofNat_add, UInt64.add_assoc]
      · obtain rfl := length_eq_zero_iff.mp (show stream.length = 0 by omega)
        refine ⟨_, if_neg hpos, ?_⟩
        rw [received]
        split_ifs <;> exact (UInt64.add_zero _).symm

/-- Whatever the calls of the sender meet and however the stream is cut, the receiver counts what the
sender counts, and what the kernel took of a last buffer that was not counted. -/
theorem bytes_received (env : Env) (req : TestRequest) {n : ℕ} {status : ℤ}
    (hreturned : (sendStream env req n).pc = .returned status) (clock : ℕ → UInt64)
    {replies : List WriteReply} (hfailed : .failed ∉ replies)
    (henough : (sendStream env req n).sent.length < replies.countP (· ≠ .interrupted)) :
    ∃ r lost, incomingTest clock replies 0 (sendStream env req n).sent ⟨0, 0, 0, none⟩ = some r ∧
      r.bytes = (sendStream env req n).result.bytes + UInt64.ofNat lost ∧
      lost ≤ req.writeSize.toNat ∧
      (lost ≠ 0 → (∃ i, env.write i = .failed) ∨ 2 ^ 31 ≤ req.writeSize.toNat) := by
  obtain ⟨lost, hlost, hsent⟩ := counted_sendStream env req n
  rw [hreturned] at hlost
  obtain ⟨r, hr, hbytes⟩ := incomingTest_counts clock 0 ⟨0, 0, 0, none⟩ hfailed henough
  exact ⟨r, lost, hr, hbytes.trans ((UInt64.zero_add _).trans hsent), hlost.1, hlost.2⟩

theorem three_bytes_received : ∃ r lost,
    incomingTest (fun _ => 0) (replicate 4 (.room 0)) 0 (sendStream readyEnv threeBytes 8).sent ⟨0, 0, 0, none⟩ = some r ∧
      r.bytes = (sendStream readyEnv threeBytes 8).result.bytes + UInt64.ofNat lost := by
  have hreturned : (sendStream readyEnv threeBytes 8).pc = .returned 0 := by decide
  have hfailed : WriteReply.failed ∉ replicate 4 (.room 0) := by decide
  obtain ⟨r, lost, hr, hbytes, -⟩ :=
    bytes_received readyEnv threeBytes hreturned (fun _ => 0) hfailed (by decide)
  exact ⟨r, lost, hr, hbytes⟩

end Amplet.ThroughputReceiving
