import Amplet.IcmpPackets

/-!
# Answers to probes of the ICMP test

The handlers of `src/tests/icmp/icmp.c` on messages that quote a probe and replies that
mirror it. A probe has the lowest 16 bits of its number. The total length of a message
is compared in the order of the machine.
-/

namespace Amplet.IcmpProbes
open List Function Option Bytes IcmpPackets ProbeTest ScheduleTime SocketAddress
open DnsQuery (htons htons_toNat)
open TracerouteProbe (Packet word headerLen)

section Bytes

variable {p : Packet} {i : ℕ} {x : UInt16}

theorem word_eq (hhigh : p i = (x >>> 8).toUInt8) (hlow : p (i + 1) = x.toUInt8) : word p i = x.toNat := by
  rw [word, hhigh, hlow, htons_toNat]

theorem loaded_stored {e : Endian} (h : ∀ k < 2, (stored e x)[k]? = some (p (i + k))) : loaded e p i = x.toNat := by
  have hfirst := h 0 (by omega)
  have hsecond := h 1 (by omega)
  cases e with
  | little =>
    simp only [stored, htons, reverse_cons, reverse_nil, nil_append, cons_append,
      getElem?_cons_zero, getElem?_cons_succ, some.injEq, Nat.add_zero] at hfirst hsecond
    rw [loaded, loadBytes, ← hfirst, ← hsecond, htons_toNat]
  | big =>
    simp only [stored, htons, getElem?_cons_zero, getElem?_cons_succ, some.injEq, Nat.add_zero] at hfirst hsecond
    rw [loaded, loadBytes, ← hfirst, ← hsecond, htons_toNat]

end Bytes

section Probe

variable {e : Endian} {family packetSize seq len : ℕ} {ident magic : UInt16} {probe : CStr}

@[simp] theorem length_stored (e : Endian) (x : UInt16) : (stored e x).length = 2 := by
  cases e <;> rfl

theorem length_probeBytes {cksum : CStr} (h : cksum.length = 2) :
    (probeBytes e family packetSize seq ident magic cksum).length = 10 + (packetSize - 10) := by
  simp [probeBytes, htons, h]
  omega

theorem buildProbe_ok (e : Endian) (family seq : ℕ) (ident magic : UInt16) (h : minPacketLen ≤ packetSize) :
    ∃ probe len, buildProbe e family packetSize seq ident magic = .ok (probe, len) ∧ 10 ≤ probe.length ∧ len ≤ probe.length := by
  dsimp only [buildProbe]
  rw [if_neg (not_lt.mpr h)]
  split_ifs
  · exact ⟨_, _, rfl, by rw [length_probeBytes (length_stored _ _)]; omega⟩
  · exact ⟨_, _, rfl, by rw [length_probeBytes rfl]; omega⟩

section

variable (h : buildProbe e family packetSize seq ident magic = .ok (probe, len))
include h

theorem buildProbe_eq_ok :
    10 ≤ len ∧ ∃ cksum, cksum.length = 2 ∧ probe = probeBytes e family packetSize seq ident magic cksum := by
  dsimp only [buildProbe] at h
  split_ifs at h with hsize hfamily
  · cases h
    simp only [minPacketLen, sizeofIp6Hdr, sizeofIcmphdr, sizeofIphdr] at hsize ⊢
    exact ⟨by omega, _, length_stored _ _, rfl⟩
  · cases h
    simp only [minPacketLen, sizeofIp6Hdr, sizeofIcmphdr] at hsize ⊢
    exact ⟨by omega, _, rfl, rfl⟩

theorem probeBytes_head : probe[0]? = some (if family = afInet then 8 else 128) ∧ probe[1]? = some 0 := by
  obtain ⟨-, cksum, -, rfl⟩ := buildProbe_eq_ok h
  exact ⟨rfl, rfl⟩

theorem probe_numbers {p : Packet} {i : ℕ} (hbytes : ∀ k, 4 ≤ k → k < 8 → probe[k]? = some (p (i + k))) :
    word p (i + 4) = ident.toNat ∧ word p (i + 6) = seq % 65536 := by
  obtain ⟨-, cksum, hlength, rfl⟩ := buildProbe_eq_ok h
  obtain ⟨c, d, rfl⟩ := length_eq_two.mp hlength
  have hseq : seq % 65536 = (UInt16.ofNat seq).toNat := (UInt16.toNat_ofNat' ..).symm
  have h4 := some.inj (hbytes 4 (by omega) (by omega))
  have h5 := some.inj (hbytes 5 (by omega) (by omega))
  have h6 := some.inj (hbytes 6 (by omega) (by omega))
  have h7 := some.inj (hbytes 7 (by omega) (by omega))
  exact ⟨word_eq h4.symm h5.symm, (word_eq h6.symm h7.symm).trans hseq.symm⟩

theorem probe_magic {p : Packet} {i : ℕ} (hbytes : ∀ k, 8 ≤ k → k < 10 → probe[k]? = some (p (i + k))) :
    loaded e p (i + 8) = magic.toNat := by
  obtain ⟨-, cksum, hlength, rfl⟩ := buildProbe_eq_ok h
  obtain ⟨c, d, rfl⟩ := length_eq_two.mp hlength
  refine loaded_stored fun k hk => ?_
  have hk' := hbytes (8 + k) (by omega) (by omega)
  rw [probeBytes, getElem?_append_left (by simp [htons]; omega), getElem?_append_right (by simp [htons])] at hk'
  simpa [htons, Nat.add_assoc] using hk'

end

end Probe

section Errors

variable {count : ℕ} {e : Endian} {packetSize len : ℕ} {ident magic : UInt16} {probe : CStr}
  {p : Packet} {bytes : ℕ}

/-- Quotes at least the two headers of a probe; the total length is in network order. -/
structure QuotesProbe (probe : CStr) (p : Packet) (bytes : ℕ) : Prop where
  header : LegalHeader p
  type : p (headerLen p 0) ≠ 0
  quotedVersion : version p (headerLen p 0 + 8) = 4
  quotedHeader : 5 ≤ (p (headerLen p 0 + 8)).toNat % 16
  quotedProtocol : p (headerLen p 0 + 17) = 1
  quoted : ∀ k < 8, probe[k]? = some (p (embedIcmp p + k))
  room : embedIcmp p + 8 ≤ bytes
  total : embedIcmp p + 8 ≤ word p 2

def ErrorRecorded (e : Endian) (p : Packet) (bytes : ℕ) (ident : UInt16) (seq : Fin count) : Prop :=
  ∀ (now : TimeVal) (g : IcmpGlobals count), g.ident = ident → ∃ g' result, processIpv4Packet e p bytes now g = .ok (g', result) ∧
      (g'.info seq).errType = p (headerLen p 0) ∧ (g'.info seq).errCode = p (headerLen p 0 + 1) ∧
        (g'.info seq).reply = (if p (headerLen p 0) ≠ 5 then true else (g.info seq).reply) ∧ ∀ j ≠ seq, g'.info j = g.info j

theorem QuotesProbe.embedIcmp_ge (h : QuotesProbe probe p bytes) : headerLen p 0 + 28 ≤ embedIcmp p := by
  have := h.quotedHeader
  simp only [embedIcmp, headerLen, sizeofIcmphdr] at this ⊢
  omega

theorem QuotesProbe.error4_iff {seq : ℕ} (h : QuotesProbe probe p bytes)
    (hprobe : buildProbe e afInet packetSize seq ident magic = .ok (probe, len)) :
    Error4 e ident p bytes ↔ headerLen p 0 + 36 ≤ loaded e p 2 := by
  refine ⟨fun herror => herror.2.2.1, fun htotal => ?_⟩
  have hge := h.embedIcmp_ge
  have hroom := h.room
  obtain ⟨htype, hcode⟩ := probeBytes_head hprobe
  have hident := (probe_numbers hprobe fun k _ hk => h.quoted k hk).1
  rw [h.quoted 0 (by omega), if_pos rfl, some.injEq] at htype
  rw [h.quoted 1 (by omega), some.injEq] at hcode
  exact ⟨h.header, by omega, htotal, h.type, h.quotedVersion, h.quotedProtocol, htype, hcode, hident⟩

theorem errorRecorded_of_error4 {seq : Fin count} (herror : Error4 e ident p bytes)
    (hseq : word p (embedIcmp p + 6) = seq) : ErrorRecorded e p bytes ident seq := by
  rintro now g rfl
  have hprocess : processIpv4Packet e p bytes now g = .ok (g.setInfo seq
      ((g.info seq).recordError (p (headerLen p 0)) (p (headerLen p 0 + 1))), 0) := by
    rw [processIpv4Packet_error herror, reported, quotedSeq, hseq, entry_val, setEntry_val]
  refine ⟨_, _, hprocess, ?_⟩
  simp only [Globals.setInfo, update_self]
  exact ⟨rfl, rfl, rfl, fun j hj => update_of_ne hj _ _⟩

theorem not_errorRecorded {seq : Fin count} (h : ∀ (now : TimeVal) (g g' : IcmpGlobals count) (result : ℤ), g.ident = ident →
      processIpv4Packet e p bytes now g = .ok (g', result) → g'.info seq = g.info seq)
    (htype : p (headerLen p 0) ≠ 0) : ¬ ErrorRecorded e p bytes ident seq := by
  intro hrecorded
  let g : IcmpGlobals count := { exampleGlobals count with ident := ident }
  obtain ⟨g', result, hprocess, herrType, -⟩ := hrecorded ⟨0, 0⟩ g rfl
  rw [h _ _ _ _ rfl hprocess] at herrType
  exact htype herrType.symm

theorem QuotesProbe.of_errorRecorded {seq : Fin count} (h : QuotesProbe probe p bytes)
    (hprobe : buildProbe e afInet packetSize seq ident magic = .ok (probe, len))
    (hrecorded : ErrorRecorded e p bytes ident seq) :
    seq.val < 65536 ∧ headerLen p 0 + 36 ≤ loaded e p 2 := by
  have hseq := (probe_numbers hprobe fun k _ hk => h.quoted k hk).2
  by_contra hnot
  refine not_errorRecorded ?_ h.type hrecorded
  rintro now g g' result rfl hprocess
  rcases processIpv4Packet_cases hprocess with ⟨rfl, -⟩ | ⟨i, -, hanswers, -⟩ | ⟨herror, rfl, -⟩
  · rfl
  · exact absurd hanswers.1.2.2.1 h.type
  · -- the message is accepted, so the number of the probe does not fit
    refine setEntry_info_of_ne g _ fun heq => hnot ⟨?_, (h.error4_iff hprobe).mp herror⟩
    rw [quotedSeq, hseq] at heq
    omega

theorem errorRecorded_iff (seq : Fin count) (hprobe : buildProbe e afInet packetSize seq ident magic = .ok (probe, len))
    (h : QuotesProbe probe p bytes) :
    ErrorRecorded e p bytes ident seq ↔ seq.val < 65536 ∧ headerLen p 0 + 36 ≤ loaded e p 2 := by
  refine ⟨h.of_errorRecorded hprobe, fun ⟨hlt, htotal⟩ => ?_⟩
  refine errorRecorded_of_error4 ((h.error4_iff hprobe).mpr htotal) ?_
  have hseq := (probe_numbers hprobe fun k _ hk => h.quoted k hk).2
  rw [hseq, Nat.mod_eq_of_lt hlt]

theorem packetOf_append (before behind : CStr) (k : ℕ) : packetOf (before ++ behind) (before.length + k) = behind[k]?.getD 0 := by
  rw [packetOf, getElem?_append_right (Nat.le_add_right _ _), Nat.add_sub_cancel_left]

def exampleError (total : UInt16) (probe : CStr) : Packet :=
  packetOf ((ipHeader total ++ icmpHeader 3 1 0 0 ++ ipHeader 300) ++ probe)

theorem headerLen_exampleError (total : UInt16) (probe : CStr) : headerLen (exampleError total probe) 0 = 20 := by
  have hfirst : exampleError total probe 0 = 0x45 := rfl
  rw [headerLen, hfirst]
  rfl

theorem embedIcmp_exampleError (total : UInt16) (probe : CStr) : embedIcmp (exampleError total probe) = 48 := by
  have hquoted : exampleError total probe 28 = 0x45 := rfl
  rw [embedIcmp, headerLen_exampleError, sizeofIcmphdr, headerLen, hquoted]
  rfl

theorem exampleError_quotes {total : UInt16} (hlen : 10 ≤ probe.length) (htotal : 56 ≤ total.toNat)
    (hbytes : 56 ≤ bytes) : QuotesProbe probe (exampleError total probe) bytes := by
  have hfirst : exampleError total probe 0 = 0x45 := rfl
  have htype : exampleError total probe 20 = 3 := rfl
  have hquoted : exampleError total probe 28 = 0x45 := rfl
  have hprotocol : exampleError total probe 37 = 1 := rfl
  have hword : word (exampleError total probe) 2 = total.toNat := word_eq rfl rfl
  constructor
  · rw [LegalHeader, version, hfirst]
    decide
  · rw [headerLen_exampleError, htype]
    decide
  · rw [headerLen_exampleError, version, hquoted]
    rfl
  · rw [headerLen_exampleError, hquoted]
    decide
  · rw [headerLen_exampleError, hprotocol]
  · intro k hk
    rw [embedIcmp_exampleError]
    have happend : exampleError total probe (48 + k) = _ := packetOf_append _ _ _
    have hget : probe[k]? = some (probe.get ⟨k, by omega⟩) := getElem?_eq_getElem (by omega)
    rw [happend, hget]
    rfl
  · rw [embedIcmp_exampleError]
    exact hbytes
  · rw [embedIcmp_exampleError, hword]
    exact htotal

theorem loaded_exampleError (total : UInt16) (probe : CStr) :
    loaded .little (exampleError total probe) 2 = total.toUInt8.toNat * 256 + (total >>> 8).toUInt8.toNat :=
  rfl

theorem unreachable_recorded : ∃ probe len, buildProbe .little afInet 300 (0 : Fin 1) 0x1234 0xabcd = .ok (probe, len) ∧
      QuotesProbe probe (exampleError 56 probe) 56 ∧ ErrorRecorded .little (exampleError 56 probe) 56 0x1234 (0 : Fin 1) := by
  obtain ⟨probe, len, hprobe, hlen, -⟩ :=
    buildProbe_ok .little afInet (0 : Fin 1) 0x1234 0xabcd (show minPacketLen ≤ 300 by decide)
  have hquotes : QuotesProbe probe (exampleError 56 probe) 56 :=
    exampleError_quotes hlen (by decide) le_rfl
  refine ⟨probe, len, hprobe, hquotes, (errorRecorded_iff 0 hprobe hquotes).mpr ⟨by decide, ?_⟩⟩
  rw [headerLen_exampleError, loaded_exampleError]
  decide

theorem unreachable_ignored : ∃ probe len, buildProbe .little afInet 300 (0 : Fin 1) 0x1234 0xabcd = .ok (probe, len) ∧
      QuotesProbe probe (exampleError 256 probe) 96 ∧ ¬ ErrorRecorded .little (exampleError 256 probe) 96 0x1234 (0 : Fin 1) := by
  obtain ⟨probe, len, hprobe, hlen, -⟩ :=
    buildProbe_ok .little afInet (0 : Fin 1) 0x1234 0xabcd (show minPacketLen ≤ 300 by decide)
  have hquotes : QuotesProbe probe (exampleError 256 probe) 96 :=
    exampleError_quotes hlen (by decide) (by decide)
  refine ⟨probe, len, hprobe, hquotes, fun hrecorded => ?_⟩
  have hloaded := (hquotes.of_errorRecorded hprobe hrecorded).2
  rw [headerLen_exampleError, loaded_exampleError] at hloaded
  exact absurd hloaded (by decide)

end Errors

section Replies

variable {count : ℕ} {e : Endian} {family packetSize len : ℕ} {ident magic : UInt16} {probe : CStr}
  {p : Packet} {bytes : ℕ}

def processPacket (e : Endian) (family : ℕ) (p : Packet) (bytes : ℕ) (now : TimeVal) (g : IcmpGlobals count) :
    Except Fault (IcmpGlobals count × ℤ) :=
  if family = afInet then processIpv4Packet e p bytes now g else processIpv6Packet e p bytes now g

def icmpOffset (family : ℕ) (p : Packet) : ℕ := if family = afInet then headerLen p 0 else 0

/-- Everything but the type and the checksum is as it was sent, as far as it was received. -/
structure MirrorsProbe (family : ℕ) (probe : CStr) (len : ℕ) (p : Packet) (bytes : ℕ) : Prop where
  header : family = afInet → LegalHeader p
  room : icmpOffset family p + 10 ≤ bytes
  type : p (icmpOffset family p) = if family = afInet then 0 else 129
  mirrored : ∀ k < len, icmpOffset family p + k < bytes → k ≠ 0 → k ≠ 2 → k ≠ 3 → probe[k]? = some (p (icmpOffset family p + k))

def ReplyRecorded (e : Endian) (family : ℕ) (p : Packet) (bytes : ℕ) (ident magic : UInt16) (seq : Fin count) : Prop :=
  ∀ (now : TimeVal) (g : IcmpGlobals count), g.ident = ident → (g.info seq).magic = magic →
    ∃ g' result, processPacket e family p bytes now g = .ok (g', result) ∧
      (g'.info seq).reply = true ∧ (g'.info seq).delay = recordedDelay now (g.info seq).timeSent ∧
        g'.outstanding = g.outstanding - 1 ∧ ∀ j ≠ seq, g'.info j = g.info j

def RejectedUnchanged (e : Endian) (count : ℕ) : Prop :=
  ∀ (family : ℕ) (p : Packet) (bytes : ℕ) (now : TimeVal) (g g' : IcmpGlobals count),
    processPacket e family p bytes now g = .ok (g', -1) → g' = g

theorem rejected_unchanged (e : Endian) (count : ℕ) : RejectedUnchanged e count := by
  intro family p bytes now g g' h
  rw [processPacket] at h
  split_ifs at h
  · rcases processIpv4Packet_cases h with ⟨rfl, -⟩ | ⟨i, -, -, -, hzero⟩ | ⟨-, -, hzero⟩
    · rfl
    · cases hzero
    · cases hzero
  · rcases processIpv6Packet_cases h with ⟨rfl, -⟩ | ⟨i, -, -, -, hzero⟩
    · rfl
    · cases hzero

theorem MirrorsProbe.numbers {seq : ℕ} (h : MirrorsProbe family probe len p bytes)
    (hprobe : buildProbe e family packetSize seq ident magic = .ok (probe, len)) :
    word p (icmpOffset family p + 4) = ident.toNat ∧ word p (icmpOffset family p + 6) = seq % 65536 ∧
      loaded e p (icmpOffset family p + 8) = magic.toNat := by
  have hlen := (buildProbe_eq_ok hprobe).1
  have hroom := h.room
  have hbytes : ∀ k, 4 ≤ k → k < 10 → probe[k]? = some (p (icmpOffset family p + k)) := fun k hk hk' =>
    h.mirrored k (by omega) (by omega) (by omega) (by omega) (by omega)
  obtain ⟨hident, hseq⟩ := probe_numbers hprobe fun k hk hk' => hbytes k hk (by omega)
  exact ⟨hident, hseq, probe_magic hprobe fun k hk hk' => hbytes k (by omega) hk'⟩

section

variable {seq : Fin count} (h : MirrorsProbe family probe len p bytes)
  (hprobe : buildProbe e family packetSize seq ident magic = .ok (probe, len))
include h hprobe

theorem MirrorsProbe.processPacket_eq (hlt : seq.val < 65536) (now : TimeVal)
    {g : IcmpGlobals count} (hident : g.ident = ident) (hmagic : (g.info seq).magic = magic) :
    processPacket e family p bytes now g = .ok (replied seq now g, 0) := by
  subst hident hmagic
  have hroom := h.room
  have htype := h.type
  obtain ⟨hident, hseq, hmagic⟩ := h.numbers hprobe
  rw [Nat.mod_eq_of_lt hlt] at hseq
  have htake : ∀ magic, loaded e p magic = (g.info seq).magic.toNat →
      takeReply e p magic seq now g = (replied seq now g, 0) := fun magic hmagic => by
    rw [takeReply, entry_val, if_neg (not_not_intro hmagic)]
  rw [processPacket]
  by_cases hfamily : family = afInet
  · rw [icmpOffset, if_pos hfamily] at hroom htype hident hseq hmagic
    rw [if_pos hfamily] at htype
    have hreply : Reply4 g.ident p bytes := ⟨h.header hfamily, hroom, htype, hident⟩
    rw [if_pos hfamily, processIpv4Packet_reply hreply (hseq.trans_le seq.isLt.le), hseq, htake _ hmagic]
  · rw [icmpOffset, if_neg hfamily] at hroom htype hident hseq hmagic
    rw [if_neg hfamily] at htype
    simp only [Nat.zero_add] at hroom hident hseq hmagic
    have hreply : Reply6 g.ident p bytes := ⟨by omega, htype, hident⟩
    rw [if_neg hfamily, processIpv6Packet_reply hreply (hseq.trans_le seq.isLt.le), hseq, htake _ hmagic]

theorem MirrorsProbe.info_eq (hle : 65536 ≤ seq.val) {now : TimeVal} {g g' : IcmpGlobals count}
    {result : ℤ} (hprocess : processPacket e family p bytes now g = .ok (g', result)) :
    g'.info seq = g.info seq := by
  have htype := h.type
  obtain ⟨-, hseq, -⟩ := h.numbers hprobe
  have hother : ∀ i, word p (icmpOffset family p + 6) = i → seq.val ≠ i := by
    rintro i hi rfl
    omega
  rw [processPacket] at hprocess
  by_cases hfamily : family = afInet
  · rw [icmpOffset, if_pos hfamily] at htype hother
    rw [if_pos hfamily] at htype hprocess
    rcases processIpv4Packet_cases hprocess with ⟨rfl, -⟩ | ⟨i, -, hanswers, rfl, -⟩ | ⟨herror, -⟩
    · rfl
    · exact setEntry_info_of_ne g _ (hother i hanswers.2.1)
    · exact absurd htype herror.2.2.2.1
  · rw [icmpOffset, if_neg hfamily] at hother
    rw [if_neg hfamily] at hprocess
    rcases processIpv6Packet_cases hprocess with ⟨rfl, -⟩ | ⟨i, -, hanswers, rfl, -⟩
    · rfl
    · exact setEntry_info_of_ne g _ (hother i (by rw [Nat.zero_add]; exact hanswers.2.1))

theorem MirrorsProbe.lt_of_replyRecorded (hrecorded : ReplyRecorded e family p bytes ident magic seq) : seq.val < 65536 := by
  by_contra hnot
  let g : IcmpGlobals count :=
    { exampleGlobals count with ident := ident, info := fun _ => { Info.zero with magic := magic } }
  obtain ⟨g', result, hprocess, hreply, -⟩ := hrecorded ⟨0, 0⟩ g rfl rfl
  rw [h.info_eq hprobe (not_lt.mp hnot) hprocess] at hreply
  cases hreply

end

theorem replyRecorded_iff (seq : Fin count) (hprobe : buildProbe e family packetSize seq ident magic = .ok (probe, len))
    (h : MirrorsProbe family probe len p bytes) :
    (ReplyRecorded e family p bytes ident magic seq ∧ RejectedUnchanged e count) ↔ seq.val < 65536 := by
  refine ⟨fun hboth => h.lt_of_replyRecorded hprobe hboth.1, fun hlt => ⟨?_, rejected_unchanged e count⟩⟩
  intro now g hident hmagic
  refine ⟨_, _, h.processPacket_eq hprobe hlt now hident hmagic, ?_⟩
  simp only [replied, entry_val, setEntry_val, Globals.setInfo, update_self]
  exact ⟨rfl, rfl, trivial, fun j hj => update_of_ne hj _ _⟩

def exampleReply (probe : CStr) : Packet := packetOf ((ipHeader 300 ++ [0, 0, 0, 0]) ++ probe.drop 4)

theorem exampleReply_mirrors {seq : ℕ}
    (hprobe : buildProbe e afInet packetSize seq ident magic = .ok (probe, len)) (hbytes : 30 ≤ bytes)
    (hlen : len ≤ probe.length) : MirrorsProbe afInet probe len (exampleReply probe) bytes := by
  have hfirst : exampleReply probe 0 = 0x45 := rfl
  have hoffset : icmpOffset afInet (exampleReply probe) = 20 := by
    rw [icmpOffset, if_pos rfl, headerLen, hfirst]
    rfl
  constructor
  · intro _
    rw [LegalHeader, version, hfirst]
    decide
  · rw [hoffset]
    exact hbytes
  · rw [hoffset]
    rfl
  · intro k hk _ hzero htwo hthree
    rw [hoffset]
    by_cases hone : k = 1
    · subst hone
      exact (probeBytes_head hprobe).2
    · obtain ⟨k, rfl⟩ : ∃ j, k = 4 + j := ⟨k - 4, by omega⟩
      have happend : exampleReply probe (24 + k) = _ := packetOf_append _ _ _
      have hget : probe[4 + k]? = some (probe.get ⟨4 + k, by omega⟩) := getElem?_eq_getElem (by omega)
      rw [← Nat.add_assoc, happend, getElem?_drop, hget]
      rfl

theorem first_reply_recorded : ∃ probe len, buildProbe .little afInet 84 (0 : Fin 2) 0x1234 0xabcd = .ok (probe, len) ∧
      MirrorsProbe afInet probe len (exampleReply probe) 84 ∧
        ReplyRecorded .little afInet (exampleReply probe) 84 0x1234 0xabcd (0 : Fin 2) := by
  obtain ⟨probe, len, hprobe, -, hlen⟩ :=
    buildProbe_ok .little afInet (0 : Fin 2) 0x1234 0xabcd (show minPacketLen ≤ 84 by decide)
  have hmirrors : MirrorsProbe afInet probe len (exampleReply probe) 84 :=
    exampleReply_mirrors hprobe (by decide) hlen
  exact ⟨probe, len, hprobe, hmirrors, ((replyRecorded_iff 0 hprobe hmirrors).mpr (by decide)).1⟩

theorem last_reply_unrecorded : ∃ probe len, buildProbe .little afInet 84 (Fin.last 65536) 0x1234 0xabcd = .ok (probe, len) ∧
      MirrorsProbe afInet probe len (exampleReply probe) 84 ∧
        ¬ ReplyRecorded .little afInet (exampleReply probe) 84 0x1234 0xabcd (Fin.last 65536) := by
  obtain ⟨probe, len, hprobe, -, hlen⟩ :=
    buildProbe_ok .little afInet (Fin.last 65536) 0x1234 0xabcd (show minPacketLen ≤ 84 by decide)
  have hmirrors : MirrorsProbe afInet probe len (exampleReply probe) 84 :=
    exampleReply_mirrors hprobe (by decide) hlen
  refine ⟨probe, len, hprobe, hmirrors, fun hrecorded => ?_⟩
  have hlt := hmirrors.lt_of_replyRecorded hprobe hrecorded
  rw [Fin.val_last] at hlt
  omega

end Replies

end Amplet.IcmpProbes
