import Amplet.ProbeTest
import Amplet.SignedWords

/-!
# Responses to SYN packets

Embedding of `unpack_destid` and `match_response` in `src/tests/tcpping/tcpping.c`, and
of the sequence numbers of `craft_tcp_syn`. Numbers in a TCP header are those that
`ntohl` gives, and an `int` wraps. `ident` is not used here, and `options` has the first
sequence number.
-/

namespace Amplet.TcppingResponses
open ProbeTest ScheduleTime SignedWords

inductive Reply
  | noReply
  | tcpReply
  | icmpReply
deriving DecidableEq, Repr

structure Info where
  addr : ℕ
  timeSent : TimeVal
  seqno : UInt32
  delay : ℕ
  reply : Reply
  replyflags : ℕ
  icmptype : UInt8
  icmpcode : UInt8

structure Options where
  packetSize : UInt16
  seqindex : ℤ

abbrev TcppingGlobals (count : ℕ) := Globals Options Info count

structure Tcphdr where
  seq : UInt32
  ackSeq : UInt32
  urg : Bool
  ack : Bool
  psh : Bool
  rst : Bool
  syn : Bool
  fin : Bool

def minTcppingProbeLen : ℕ := 40 + 20 + 4

def maxTcppingProbeLen : ℕ := 1500

def unpackDestid (destid max : ℤ) : ℤ :=
  if destid < 0 ∨ destid ≥ int32 (max * 100) ∨ destid % 100 ≠ 0 then -1 else destid / 100

section

variable {count : ℕ}

def synSeq (tp : TcppingGlobals count) (destindex : ℕ) : UInt32 :=
  UInt32.ofNat ((tp.options.seqindex + destindex * 100) % 2 ^ 32).toNat

def payload (tp : TcppingGlobals count) : ℤ := tp.options.packetSize.toNat - minTcppingProbeLen

def destidOf (tp : TcppingGlobals count) (tcp : Tcphdr) (istcp : Bool) : ℤ :=
  if istcp then
    let packedDestid := int32 (tcp.ackSeq.toNat - tp.options.seqindex - 1)
    let destid := unpackDestid packedDestid count
    if destid < 0 then unpackDestid (int32 (packedDestid - payload tp)) count else destid
  else unpackDestid (int32 (tcp.seq.toNat - tp.options.seqindex)) count

theorem toNat_lt_count {destid : ℤ} (h : 0 ≤ destid ∧ destid < count) : destid.toNat < count := by
  omega

def matchResponse (tp : TcppingGlobals count) (tcp : Tcphdr) (istcp : Bool) : Option (Fin count) :=
  let destid := destidOf tp tcp istcp
  if h : 0 ≤ destid ∧ destid < count then
    if (tp.info ⟨destid.toNat, toNat_lt_count h⟩).reply ≠ .noReply then none
    else some ⟨destid.toNat, toNat_lt_count h⟩
  else none

end

section Unpacking

variable {x k max : ℤ}

theorem unpackDestid_mul (hk : 0 ≤ k) (h : k * 100 < int32 (max * 100)) : unpackDestid (k * 100) max = k := by
  rw [unpackDestid, if_neg (by omega)]
  omega

theorem unpackDestid_eq_iff (hk : 0 ≤ k) : unpackDestid x max = k ↔ x = k * 100 ∧ x < int32 (max * 100) := by
  constructor
  · intro h
    rw [unpackDestid] at h
    split_ifs at h <;> omega
  · rintro ⟨rfl, h⟩
    exact unpackDestid_mul hk h

theorem unpackDestid_beyond (hx : 0 ≤ x ∧ x < 2 ^ 32) (h : x % 100 ≠ 0 ∨ int32 (max * 100) ≤ x) :
    unpackDestid (int32 x) max = -1 := by
  rw [unpackDestid, if_pos]
  by_cases hsmall : x < 2 ^ 31
  · rw [int32_of_range (by omega)]
    omega
  · left
    simp only [int32]
    omega

end Unpacking

section Matching

variable {count : ℕ} {tp : TcppingGlobals count} {tcp : Tcphdr} {istcp : Bool} {i j : Fin count}

theorem toNat_synSeq (tp : TcppingGlobals count) (k : ℕ) :
    ((synSeq tp k).toNat : ℤ) = (tp.options.seqindex + k * 100) % 2 ^ 32 := by
  rw [synSeq, UInt32.toNat_ofNat']
  omega

/-- A TCP response to the SYN, or a copy of that SYN in an ICMP error. -/
def Responds (tp : TcppingGlobals count) (i : Fin count) (tcp : Tcphdr) (istcp : Bool) : Prop :=
  if istcp then
    tcp.ackSeq = synSeq tp i + 1 ∨ tcp.ackSeq = synSeq tp i + 1 + UInt32.ofNat (payload tp).toNat
  else tcp.seq = synSeq tp i

theorem matchResponse_eq_some_iff : matchResponse tp tcp istcp = some j ↔
      destidOf tp tcp istcp = (j : ℕ) ∧ (tp.info j).reply = .noReply := by
  rw [matchResponse]
  have hj := j.isLt
  split_ifs with hrange hreply
  · refine iff_of_false (by simp) fun h => hreply ?_
    rw [show (⟨(destidOf tp tcp istcp).toNat, toNat_lt_count hrange⟩ : Fin count) = j from
      Fin.ext (by simp only; omega)]
    exact h.2
  · rw [Option.some.injEq]
    constructor
    · rintro rfl
      exact ⟨by simp only; omega, not_not.mp hreply⟩
    · exact fun h => Fin.ext (by simp only; omega)
  · refine iff_of_false (by simp) fun h => hrange ?_
    omega

theorem packed_ack {n : ℕ} (h : tcp.ackSeq = synSeq tp i + 1 + UInt32.ofNat n) :
    int32 (tcp.ackSeq.toNat - tp.options.seqindex - 1) = int32 ((i : ℕ) * 100 + n) := by
  rw [int32_eq_iff, h, UInt32.toNat_add, UInt32.toNat_add, UInt32.toNat_ofNat', UInt32.toNat_one]
  have hseq := toNat_synSeq tp i
  omega

theorem packed_seq (h : tcp.seq = synSeq tp i) : int32 (tcp.seq.toNat - tp.options.seqindex) = int32 ((i : ℕ) * 100) := by
  rw [int32_eq_iff, h]
  have hseq := toNat_synSeq tp i
  omega

theorem ackSeq_of_packed {n : ℕ} (h : int32 (tcp.ackSeq.toNat - tp.options.seqindex - 1 - n) = (j : ℕ) * 100) :
    tcp.ackSeq = synSeq tp j + 1 + UInt32.ofNat n := by
  apply UInt32.toNat_inj.mp
  rw [UInt32.toNat_add, UInt32.toNat_add, UInt32.toNat_ofNat', UInt32.toNat_one]
  have hseq := toNat_synSeq tp j
  have hack := tcp.ackSeq.toNat_lt
  simp only [int32] at h
  omega

theorem seq_of_packed (h : int32 (tcp.seq.toNat - tp.options.seqindex) = (j : ℕ) * 100) : tcp.seq = synSeq tp j := by
  apply UInt32.toNat_inj.mp
  have hseq := toNat_synSeq tp j
  have htcp := tcp.seq.toNat_lt
  simp only [int32] at h
  omega

theorem responds_of_match (hsize : minTcppingProbeLen ≤ tp.options.packetSize.toNat)
    (h : matchResponse tp tcp istcp = some j) : Responds tp j tcp istcp := by
  obtain ⟨hdestid, -⟩ := matchResponse_eq_some_iff.mp h
  have hnonneg : (0 : ℤ) ≤ (j : ℕ) := by omega
  cases istcp with
  | true =>
    rw [Responds, if_pos rfl]
    rw [destidOf, if_pos rfl] at hdestid
    dsimp only at hdestid
    split_ifs at hdestid with hfirst
    · right
      apply ackSeq_of_packed
      rw [unpackDestid_eq_iff hnonneg, int32_int32_sub] at hdestid
      rw [← hdestid.1, payload]
      congr 1
      omega
    · left
      have hack : tcp.ackSeq = synSeq tp j + 1 + UInt32.ofNat 0 :=
        ackSeq_of_packed (by simpa using ((unpackDestid_eq_iff hnonneg).mp hdestid).1)
      simpa using hack
  | false =>
    rw [destidOf, if_neg Bool.false_ne_true, unpackDestid_eq_iff hnonneg] at hdestid
    rw [Responds, if_neg Bool.false_ne_true]
    exact seq_of_packed hdestid.1

/-- No other destination is a multiple of the payload away. -/
def Unambiguous (tp : TcppingGlobals count) (i : Fin count) : Prop :=
  payload tp = 0 ∨ payload tp % 100 ≠ 0 ∨ int32 (count * 100) ≤ (i : ℕ) * 100 + payload tp

instance (tp : TcppingGlobals count) (i : Fin count) : Decidable (Unambiguous tp i) :=
  inferInstanceAs (Decidable (_ ∨ _))

theorem destidOf_ack (htcp : tcp.ackSeq = synSeq tp i + 1) (hi : (i : ℕ) * 100 < int32 (count * 100)) :
    destidOf tp tcp true = (i : ℕ) := by
  have hrange := int32_range (count * 100)
  have hzero : tcp.ackSeq = synSeq tp i + 1 + UInt32.ofNat 0 := by simpa using htcp
  have hpacked := packed_ack hzero
  rw [Nat.cast_zero, add_zero, int32_of_range (x := (i : ℕ) * 100) (by omega)] at hpacked
  rw [destidOf, if_pos rfl]
  dsimp only
  rw [hpacked, unpackDestid_mul (by omega) hi, if_neg (by omega)]

theorem destidOf_seq (htcp : tcp.seq = synSeq tp i) (hi : (i : ℕ) * 100 < int32 (count * 100)) :
    destidOf tp tcp false = (i : ℕ) := by
  have hrange := int32_range (count * 100)
  rw [destidOf, if_neg Bool.false_ne_true, packed_seq htcp, int32_of_range (by omega), unpackDestid_mul (by omega) hi]

theorem destidOf_payload (hsize : minTcppingProbeLen ≤ tp.options.packetSize.toNat)
    (hmax : tp.options.packetSize.toNat ≤ maxTcppingProbeLen)
    (htcp : tcp.ackSeq = synSeq tp i + 1 + UInt32.ofNat (payload tp).toNat)
    (hi : (i : ℕ) * 100 < int32 (count * 100)) :
    destidOf tp tcp true =
      if payload tp % 100 ≠ 0 ∨ int32 (count * 100) ≤ (i : ℕ) * 100 + payload tp then ((i : ℕ) : ℤ)
      else (i : ℕ) + payload tp / 100 := by
  have hrange := int32_range (count * 100)
  have hpayload : 0 ≤ payload tp ∧ payload tp ≤ 1436 := by
    simp only [payload, minTcppingProbeLen, maxTcppingProbeLen] at hsize hmax ⊢
    omega
  have hpacked := packed_ack htcp
  rw [Int.toNat_of_nonneg hpayload.1] at hpacked
  rw [destidOf, if_pos rfl]
  dsimp only
  rw [hpacked]
  split_ifs with hneg hcond hcond
  · rw [int32_int32_sub, add_sub_cancel_right, int32_of_range (by omega), unpackDestid_mul (by omega) hi]
  · exfalso
    rw [int32_of_range (by omega),
      show ((i : ℕ) * 100 + payload tp : ℤ) = ((i : ℕ) + payload tp / 100) * 100 by omega,
      unpackDestid_mul (by omega) (by omega)] at hneg
    omega
  · exfalso
    rw [unpackDestid_beyond (by omega) (by omega)] at hneg
    exact hneg (by decide)
  · rw [int32_of_range (by omega),
      show ((i : ℕ) * 100 + payload tp : ℤ) = ((i : ℕ) + payload tp / 100) * 100 by omega,
      unpackDestid_mul (by omega) (by omega)]

theorem exists_ackSeq (n : UInt32) : ∃ tcp : Tcphdr, tcp.ackSeq = n :=
  ⟨⟨0, n, false, true, false, false, true, false⟩, rfl⟩

theorem matches_of_responds (hsize : minTcppingProbeLen ≤ tp.options.packetSize.toNat)
    (hmax : tp.options.packetSize.toNat ≤ maxTcppingProbeLen) (hreply : (tp.info i).reply = .noReply)
    (hi : (i : ℕ) * 100 < int32 (count * 100)) (hunambiguous : Unambiguous tp i)
    (h : Responds tp i tcp istcp) : matchResponse tp tcp istcp = some i := by
  rw [matchResponse_eq_some_iff, and_iff_left hreply]
  cases istcp with
  | true =>
    rw [Responds, if_pos rfl] at h
    rcases h with hack | hack
    · exact destidOf_ack hack hi
    · rw [destidOf_payload hsize hmax hack hi]
      split_ifs with hcond
      · rfl
      · rcases hunambiguous with hzero | hother
        · rw [hzero, Int.zero_ediv, add_zero]
        · exact absurd hother hcond
  | false =>
    rw [Responds, if_neg Bool.false_ne_true] at h
    exact destidOf_seq h hi

theorem matchResponse_exact_iff (hsize : minTcppingProbeLen ≤ tp.options.packetSize.toNat)
    (hmax : tp.options.packetSize.toNat ≤ maxTcppingProbeLen) (hreply : (tp.info i).reply = .noReply) :
    ((∀ tcp istcp, Responds tp i tcp istcp → matchResponse tp tcp istcp = some i) ∧
      ∀ tcp istcp j, matchResponse tp tcp istcp = some j → Responds tp j tcp istcp) ↔
    (i : ℕ) * 100 < int32 (count * 100) ∧ Unambiguous tp i := by
  constructor
  · rintro ⟨hmatches, -⟩
    have hi : (i : ℕ) * 100 < int32 (count * 100) := by
      have hquoted := hmatches ⟨synSeq tp i, 0, false, false, false, false, true, false⟩ false rfl
      have hdestid := (matchResponse_eq_some_iff.mp hquoted).1
      rw [destidOf, if_neg Bool.false_ne_true, unpackDestid_eq_iff (by omega)] at hdestid
      omega
    refine ⟨hi, ?_⟩
    obtain ⟨tcp, htcp⟩ := exists_ackSeq (synSeq tp i + 1 + UInt32.ofNat (payload tp).toNat)
    have hdestid := (matchResponse_eq_some_iff.mp (hmatches tcp true (.inr htcp))).1
    rw [destidOf_payload hsize hmax htcp hi] at hdestid
    rw [Unambiguous]
    split_ifs at hdestid with hcond
    · exact .inr hcond
    · left
      rw [not_or, not_not] at hcond
      omega
  · rintro ⟨hi, hunambiguous⟩
    exact ⟨fun tcp istcp => matches_of_responds hsize hmax hreply hi hunambiguous, fun tcp istcp j => responds_of_match hsize⟩

end Matching

def exampleGlobals (count : ℕ) (packetSize : UInt16) : TcppingGlobals count where
  options := ⟨packetSize, 2147483600⟩
  sockets := ⟨3, 4⟩
  dests _ := some (.inet 0x090200c0#32)
  info _ := ⟨0, ⟨0, 0⟩, 0, 0, .noReply, 0, 0, 0⟩
  behind _ := ⟨0, ⟨0, 0⟩, 0, 0, .noReply, 0, 0, 0⟩
  ident := 0
  index := 0
  outstanding := 0
  nextpackettimer := true
  losstimer := false
  stopped := false

theorem matchResponse_exact_last : (∀ tcp istcp, Responds (exampleGlobals 3 164) 2 tcp istcp →
        matchResponse (exampleGlobals 3 164) tcp istcp = some 2) ∧
      ∀ tcp istcp j, matchResponse (exampleGlobals 3 164) tcp istcp = some j → Responds (exampleGlobals 3 164) j tcp istcp :=
  (matchResponse_exact_iff (i := (2 : Fin 3)) (by decide) (by decide) rfl).mpr ⟨by decide, by decide⟩

theorem matchResponse_wrong_destination : ¬(∀ tcp istcp, Responds (exampleGlobals 3 164) 0 tcp istcp →
        matchResponse (exampleGlobals 3 164) tcp istcp = some 0) ∧
      matchResponse (exampleGlobals 3 164)
        ⟨0, synSeq (exampleGlobals 3 164) 0 + 1 + 100, false, true, false, true, false, false⟩ true =
          some 1 := by
  have hwrong : matchResponse (exampleGlobals 3 164)
      ⟨0, synSeq (exampleGlobals 3 164) 0 + 1 + 100, false, true, false, true, false, false⟩ true =
        some 1 := by
    decide
  refine ⟨fun h => ?_, hwrong⟩
  have hright := h ⟨0, synSeq (exampleGlobals 3 164) 0 + 1 + 100, false, true, false, true, false, false⟩ true (.inr rfl)
  exact absurd (hwrong.symm.trans hright) (by decide)

end Amplet.TcppingResponses
