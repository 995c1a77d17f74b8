import Amplet.FastpingPackets
import Amplet.OnesComplement
import Amplet.TcppingResponses

/-!
# Checksums of probes

Embedding of `tcp_checksum`, `set_tcp_checksum` and `craft_tcp_syn` in
`src/tests/tcpping/tcpping.c`, and what `checksum` computes. Bits of the header that are
not assigned are those of the allocated block. The address of the destination is read as
one of the family of the source. A byte that is left over is added as a number.
-/

namespace Amplet.ProbeChecksums
open List Option Bytes FastpingPackets IcmpPackets IcmpProbes ProbeTest SocketAddress
open DnsQuery (htons htons_toNat)

section Syn

def htonl (x : UInt32) : CStr := htons (x >>> 16).toUInt16 ++ htons x.toUInt16

inductive Endpoints
  | inet (saddr daddr : Fin 4 → UInt8)
  | inet6 (saddr daddr : Fin 16 → UInt8)
  | other

def pseudoHeader (ends : Endpoints) (packetSize : ℕ) : Option CStr :=
  match ends with
  | .inet saddr daddr =>
    some (ofFn saddr ++ ofFn daddr ++ [0, 6] ++ htons (UInt16.ofNat packetSize))
  | .inet6 saddr daddr =>
    some (ofFn saddr ++ ofFn daddr ++ htonl (UInt32.ofNat packetSize) ++ [0, 0, 0, 6])
  | .other => none

def tcpChecksum (e : Endian) (packet pseudo : CStr) : UInt16 := checksum e (pseudo ++ packet)

def headerWords : Endpoints → ℕ × ℕ
  | .inet _ _ => (11, 5)
  | .inet6 _ _ | .other => (6, 0)

def synFront (ends : Endpoints) (srcport port : UInt16) (seq : UInt32) (block : CStr) : CStr :=
  htons srcport ++ htons port ++ htonl seq ++ [0, 0, 0, 0] ++
    [UInt8.ofNat ((headerWords ends).1 * 16) ||| (block.getD 12 0 &&& 0x0f), 2 ||| (block.getD 13 0 &&& 0xc0)] ++ htons 6666

def synBack (ends : Endpoints) (block : CStr) : CStr :=
  [0, 0] ++ ([2, 4] ++ htons 536) ++ replicate (4 * (headerWords ends).2) 1 ++ block.drop (24 + 4 * (headerWords ends).2)

def craftTcpSyn (e : Endian) (ends : Endpoints) (srcport port : UInt16) (seq : UInt32) (block : CStr) : Except Fault (CStr × ℤ) :=
  let front := synFront ends srcport port seq block
  let back := synBack ends block
  if block.length < 24 + 4 * (headerWords ends).2 then .error .memory
  else
    match pseudoHeader ends block.length with
    | none => .ok (front ++ [0, 0] ++ back, 0)
    | some pseudo =>
      .ok (front ++ stored e (tcpChecksum e (front ++ [0, 0] ++ back) pseudo) ++ back, 1)

variable {ends : Endpoints} {srcport : UInt16} {block : CStr} {result : ℤ}

theorem length_craftTcpSyn {e : Endian} {port : UInt16} {seq : UInt32} {packet : CStr}
    (h : craftTcpSyn e ends srcport port seq block = .ok (packet, result)) :
    packet.length = block.length := by
  have hfront : (synFront ends srcport port seq block).length = 16 := rfl
  have hback : 24 + 4 * (headerWords ends).2 ≤ block.length → (synBack ends block).length = block.length - 18 := by
    intro hroom
    rw [synBack, length_append, length_append, length_drop, length_replicate]
    change 6 + 4 * (headerWords ends).2 + (block.length - (24 + 4 * (headerWords ends).2)) = _
    omega
  unfold craftTcpSyn at h
  dsimp only at h
  split_ifs at h with hroom
  rw [not_lt] at hroom
  split at h
  · obtain ⟨rfl, -⟩ := Prod.mk.inj (Except.ok.inj h)
    rw [length_append, length_append, hfront, hback hroom, length_cons, length_singleton]
    omega
  · obtain ⟨rfl, -⟩ := Prod.mk.inj (Except.ok.inj h)
    rw [length_append, length_append, hfront, hback hroom, length_stored]
    omega

end Syn

section Sums

variable {e : Endian}

def words (e : Endian) : CStr → List ℕ
  | a :: b :: data => loadBytes e a b :: words e data
  | [a] => [loadBytes e a 0]
  | [] => []

theorem loadBytes_le (e : Endian) (a b : UInt8) : loadBytes e a b ≤ 65535 := by
  have ha := a.toNat_lt
  have hb := b.toNat_lt
  cases e <;> simp only [loadBytes] <;> omega

theorem words_le : ∀ (data : CStr), ∀ w ∈ words e data, w ≤ 65535
  | [] => fun w hw => absurd hw not_mem_nil
  | [a] => fun w hw => by
    rw [mem_singleton.1 hw]
    exact loadBytes_le e a 0
  | a :: b :: data => fun w hw => by
    rcases mem_cons.1 hw with rfl | hw
    · exact loadBytes_le e a b
    · exact words_le data w hw

theorem foldCarry_eq_rep (n : ℕ) : foldCarry n = OnesComplement.rep 65535 n := by
  induction n using Nat.strong_induction_on with
  | h n ih =>
    rw [foldCarry]
    split_ifs with hcarry
    · rw [ih _ (by omega)]
      refine OnesComplement.rep_congr (by omega) (by omega) (by decide) ?_
      rw [Nat.ModEq]
      omega
    · exact (OnesComplement.rep_of_le (by omega)).symm

theorem checksum_eq (e : Endian) (data : CStr) :
    (checksum e data).toNat = 65535 - OnesComplement.rep 65535 (sumWords e data) := by
  have hle := OnesComplement.rep_le (show 0 < 65535 by decide) (sumWords e data)
  rw [checksum, foldCarry_eq_rep]
  simp
  omega

theorem sumWords_append : ∀ {front : CStr}, front.length % 2 = 0 → ∀ back : CStr,
    sumWords e (front ++ back) = sumWords e front + sumWords e back
  | [], _, back => (Nat.zero_add _).symm
  | [_], h, _ => absurd h Nat.one_ne_zero
  | a :: b :: front, h, back => by
    have heven : front.length % 2 = 0 := by
      rw [length_cons, length_cons] at h
      omega
    rw [cons_append, cons_append, sumWords, sumWords, sumWords_append heven back, Nat.add_assoc]

theorem sumWords_stored (x : UInt16) : sumWords e (stored e x) = x.toNat := by
  rw [← htons_toNat x]
  cases e <;> simp only [stored, htons, reverse_cons, reverse_nil, nil_append,
    singleton_append, sumWords, loadBytes, Nat.add_zero]

theorem checksum_in_place {front : CStr} (h : front.length % 2 = 0) (back : CStr) :
    checksum e (front ++ stored e (checksum e (front ++ [0, 0] ++ back)) ++ back) = 0 := by
  have hsum : ∀ field : CStr, field.length = 2 → sumWords e (front ++ field ++ back) =
      sumWords e front + sumWords e back + sumWords e field := by
    intro field hfield
    rw [sumWords_append (by rw [length_append, hfield]; omega), sumWords_append h]
    omega
  have hzero : sumWords e [0, 0] = 0 := by cases e <;> rfl
  have hplain := hsum [0, 0] rfl
  rw [hzero, Nat.add_zero] at hplain
  rw [← UInt16.toNat_inj, checksum_eq, hsum _ (length_stored e _), sumWords_stored, checksum_eq,
    hplain, OnesComplement.rep_add_complement (by decide)]
  rfl

theorem sum_words : ∀ {front : CStr}, front.length % 2 = 0 → ∀ back : CStr,
    (words e (front ++ back)).sum = sumWords e front + (words e back).sum
  | [], _, back => (Nat.zero_add _).symm
  | [_], h, _ => absurd h Nat.one_ne_zero
  | a :: b :: front, h, back => by
    have heven : front.length % 2 = 0 := by
      rw [length_cons, length_cons] at h
      omega
    rw [cons_append, cons_append, words, sum_cons, sumWords, sum_words heven back, Nat.add_assoc]

theorem checksum_eq_iff (e : Endian) (data : CStr) :
    checksum e data = ~~~ UInt16.ofNat (OnesComplement.sum 65535 (words e data)) ↔
      OnesComplement.rep 65535 (sumWords e data) = OnesComplement.rep 65535 (words e data).sum := by
  have hpos : 0 < 65535 := by decide
  have hsum := OnesComplement.rep_le hpos (sumWords e data)
  have hwords := OnesComplement.rep_le hpos (words e data).sum
  rw [OnesComplement.sum_eq_rep hpos (words_le data), ← UInt16.toNat_inj, checksum_eq]
  generalize OnesComplement.rep 65535 (sumWords e data) = x at hsum ⊢
  generalize OnesComplement.rep 65535 (words e data).sum = y at hwords ⊢
  have hy : (~~~ UInt16.ofNat y).toNat = 65535 - y := by
    simp
    omega
  rw [hy]
  omega

theorem checksum_words_iff (e : Endian) (data : CStr) :
    checksum e data = ~~~ UInt16.ofNat (OnesComplement.sum 65535 (words e data)) ↔
      e = .little ∨ data.length % 2 = 0 ∨ data.getLast? = some 0 := by
  rw [checksum_eq_iff]
  by_cases heven : data.length % 2 = 0
  · have hsum := sum_words (e := e) heven []
    rw [append_nil, words, sum_nil, Nat.add_zero] at hsum
    rw [hsum]
    exact iff_of_true rfl (.inr (.inl heven))
  · obtain ⟨front, b, rfl⟩ : ∃ front b, data = front ++ [b] := by
      rcases eq_nil_or_concat data with rfl | ⟨front, b, hdata⟩
      · exact absurd rfl heven
      · exact ⟨front, b, by rw [hdata, concat_eq_append]⟩
    have hfront : front.length % 2 = 0 := by
      rw [length_append, length_singleton] at heven
      omega
    have hb := b.toNat_lt
    rw [sumWords_append hfront, sum_words hfront, sumWords, words, sum_singleton, getLast?_concat]
    generalize sumWords e front = n
    cases e with
    | little => exact iff_of_true (by simp [loadBytes]) (.inl rfl)
    | big =>
      have hload : loadBytes .big b 0 = b.toNat * 256 := Nat.add_zero _
      rw [hload]
      by_cases hzero : b = 0
      · subst hzero
        exact iff_of_true rfl (.inr (.inr rfl))
      · -- 255 times the byte is no multiple of all ones
        have hpos : 0 < b.toNat := by
          rw [Nat.pos_iff_ne_zero]
          exact fun h => hzero (UInt8.toNat_inj.1 h)
        refine iff_of_false ?_ ?_
        · unfold OnesComplement.rep
          rw [if_neg (by omega), if_neg (by omega)]
          omega
        · rintro (h | h | h)
          · cases h
          · exact heven h
          · exact hzero (some.inj h)

end Sums

section Packets

variable {e : Endian} {packet : CStr} {len : ℕ} {packetSize : ℕ} {pseudo : CStr}

theorem checksum_icmp {a b : UInt8} {rest : CStr} (hlen : 4 ≤ len) : checksum e (([a, b] ++
      stored e (checksum e (([a, b] ++ [0, 0] ++ rest).take len)) ++ rest).take len) = 0 := by
  have htake : ∀ field : CStr, field.length = 2 →
      ([a, b] ++ field ++ rest).take len = [a, b] ++ field ++ rest.take (len - 4) := by
    intro field hfield
    have hlength : ([a, b] ++ field).length = 4 := by rw [length_append, hfield]; rfl
    rw [take_append, hlength, take_of_length_le (by omega)]
  have heven : [a, b].length % 2 = 0 := Nat.mod_self 2
  rw [htake _ (length_stored e _), htake [0, 0] rfl]
  exact checksum_in_place heven _

theorem checksum_buildProbe {seq : ℕ} {ident magic : UInt16}
    (h : buildProbe e afInet packetSize seq ident magic = .ok (packet, len)) :
    checksum e (packet.take len) = 0 := by
  have hshape : ∀ field, probeBytes e afInet packetSize seq ident magic field = [8, 0] ++ field ++
      (htons ident ++ htons (UInt16.ofNat seq) ++ stored e magic ++ replicate (packetSize - 10) 0) := by
    intro field
    simp only [probeBytes, if_true, append_assoc]
  unfold buildProbe at h
  dsimp only at h
  rw [if_pos rfl] at h
  split_ifs at h with hsize
  cases h
  rw [not_lt] at hsize
  change 50 ≤ packetSize at hsize
  rw [hshape, hshape]
  exact checksum_icmp (show 4 ≤ packetSize - 20 by omega)

theorem checksum_buildPacket {size seq ident : UInt16} {magic : UInt64}
    (h : buildPacket e afInet size seq ident magic = .ok (packet, len)) :
    checksum e (packet.take len) = 0 := by
  have hshape : ∀ field, packetBytes e afInet size seq ident magic field = [8, 0] ++ field ++
      (htons ident ++ htons seq ++ hostOrder e (ByteOrder.bytes 8 magic.toNat) ++ replicate (size.toNat - 16) 0) := by
    intro field
    simp only [packetBytes, if_true, append_assoc]
  unfold buildPacket at h
  dsimp only at h
  rw [if_pos rfl] at h
  split_ifs at h with hsize
  cases h
  rw [not_lt] at hsize
  change 56 ≤ size.toNat at hsize
  rw [hshape, hshape]
  exact checksum_icmp (show 4 ≤ size.toNat - 20 by omega)

theorem even_pseudoHeader (h : pseudoHeader ends packetSize = some pseudo) : pseudo.length % 2 = 0 := by
  cases ends with
  | inet saddr daddr =>
    rw [← some.inj h]
    simp [htons]
  | inet6 saddr daddr =>
    rw [← some.inj h]
    simp [htonl, htons]
  | other => cases h

theorem checksum_craftTcpSyn {port : UInt16} {seq : UInt32} (h : craftTcpSyn e ends srcport port seq block = .ok (packet, result))
    (hpseudo : pseudoHeader ends packet.length = some pseudo) :
    tcpChecksum e packet pseudo = 0 := by
  rw [length_craftTcpSyn h] at hpseudo
  unfold craftTcpSyn at h
  dsimp only at h
  split_ifs at h with hroom
  rw [hpseudo] at h
  obtain ⟨rfl, -⟩ := Prod.mk.inj (Except.ok.inj h)
  have heven : (pseudo ++ synFront ends srcport port seq block).length % 2 = 0 := by
    have hlength : (synFront ends srcport port seq block).length = 16 := rfl
    have hpairs := even_pseudoHeader hpseudo
    rw [length_append, hlength]
    omega
  have hplace := checksum_in_place (e := e) heven (synBack ends block)
  simp only [tcpChecksum, append_assoc] at hplace ⊢
  exact hplace

/-- Every probe verifies; what is computed is the complement of the sum, except for a byte left
over on a big endian machine. -/
theorem checksums_verify_iff (e : Endian) (data : CStr) : (∀ packetSize seq ident magic packet len,
      buildProbe e afInet packetSize seq ident magic = .ok (packet, len) → checksum e (packet.take len) = 0) ∧
    (∀ size seq ident magic packet len, buildPacket e afInet size seq ident magic = .ok (packet, len) →
        checksum e (packet.take len) = 0) ∧
    (∀ ends srcport port seq block packet result pseudo, craftTcpSyn e ends srcport port seq block = .ok (packet, result) →
        pseudoHeader ends packet.length = some pseudo → tcpChecksum e packet pseudo = 0) ∧
    (checksum e data = ~~~ UInt16.ofNat (OnesComplement.sum 65535 (words e data)) ↔
      e = .little ∨ data.length % 2 = 0 ∨ data.getLast? = some 0) :=
  ⟨fun _ _ _ _ _ _ => checksum_buildProbe, fun _ _ _ _ _ _ => checksum_buildPacket,
    fun _ _ _ _ _ _ _ _ => checksum_craftTcpSyn, checksum_words_iff e data⟩

theorem odd_probes_verify : (∃ packet len, buildProbe .little afInet 51 1 7 9 = .ok (packet, len) ∧
      checksum .little (packet.take len) = 0) ∧
    (∃ packet len, buildPacket .big afInet 57 1 7 9 = .ok (packet, len) ∧ checksum .big (packet.take len) = 0) ∧
    (∃ packet pseudo, craftTcpSyn .big (.inet6 (fun _ => 1) fun _ => 2) 80 443 5 (replicate 25 0) = .ok (packet, 1) ∧
      pseudoHeader (.inet6 (fun _ => 1) fun _ => 2) packet.length = some pseudo ∧
      tcpChecksum .big packet pseudo = 0) ∧
    checksum .little [1, 2, 3] = ~~~ UInt16.ofNat (OnesComplement.sum 65535 [513, 3]) :=
  ⟨⟨_, _, rfl, (checksums_verify_iff .little []).1 51 1 7 9 _ _ rfl⟩,
    ⟨_, _, rfl, (checksums_verify_iff .big []).2.1 57 1 7 9 _ _ rfl⟩,
    ⟨_, _, rfl, rfl, (checksums_verify_iff .big []).2.2.1 (.inet6 (fun _ => 1) fun _ => 2) 80 443 5
      (replicate 25 0) _ 1 _ rfl rfl⟩,
    (checksums_verify_iff .little [1, 2, 3]).2.2.2.2 (.inl rfl)⟩

theorem last_byte_low : (checksum .big [1]).toNat = 0xfffe ∧
      (~~~ UInt16.ofNat (OnesComplement.sum 65535 (words .big [1]))).toNat = 0xfeff := by
  have hsum : sumWords .big [1] = 1 := rfl
  refine ⟨?_, by decide⟩
  rw [checksum_eq, hsum]
  rfl

end Packets

end Amplet.ProbeChecksums
