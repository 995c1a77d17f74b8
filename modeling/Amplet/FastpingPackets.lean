import Amplet.ByteOrder
import Amplet.IcmpProbes
import Amplet.SignedWords

/-!
# Packets of the fastping test

Embedding of `build_packet` and `extract_data` in `src/tests/fastping/fastping.c`. The
index of a packet is in its sequence number and, with 64 bits, in its payload. Over IPv4
the ICMP header of a reply is looked for behind the length that the IP header gives, but
the payload behind a header without options.
-/

namespace Amplet.FastpingPackets
open List Option ByteOrder Bytes IcmpPackets IcmpProbes ProbeTest SignedWords SocketAddress
open DnsQuery (htons htons_toNat)
open TracerouteProbe (Packet word headerLen)

def minimumFastpingPacketSize : ℕ := sizeofIp6Hdr + sizeofIcmphdr + 8

def maximumFastpingPacketCount : ℕ := 10000000

def responseBufferLen : ℕ := sizeofIphdr + 60 + sizeofIcmphdr + 8

def packetBytes (e : Endian) (family : ℕ) (size seq ident : UInt16) (magic : UInt64) (cksum : CStr) : CStr :=
  [if family = afInet then 8 else 128, 0] ++ cksum ++ htons ident ++ htons seq ++
    hostOrder e (bytes 8 magic.toNat) ++ replicate (size.toNat - 16) 0

def buildPacket (e : Endian) (family : ℕ) (size seq ident : UInt16) (magic : UInt64) : Except Fault (CStr × ℕ) :=
  let packet := packetBytes e family size seq ident magic
  if size.toNat < minimumFastpingPacketSize then .error .assertion
  else if family = afInet then
    let length := size.toNat - sizeofIphdr
    .ok (packet (stored e (checksum e ((packet [0, 0]).take length))), length)
  else .ok (packet [0, 0], size.toNat - sizeofIp6Hdr)

structure Dest where
  family : ℕ
  addr : CStr

def sockaddrLen (family : ℕ) : ℕ := if family = afInet then 16 else 28

def loadMagic (e : Endian) (p : Packet) (i : ℕ) : ℕ := value (hostOrder e (read p i 8))

def extractMagic (e : Endian) (dest : Dest) (p : Packet) (sender : CStr) (sequence offset : ℕ) : ℤ :=
  if dest.addr.take (sockaddrLen dest.family) ≠ sender.take (sockaddrLen dest.family) then -1
  else
    let magic := loadMagic e p offset
    if magic % 2 ^ 16 ≠ sequence then -1 else int64 magic

def extractData (e : Endian) (dest : Dest) (p : Packet) (length : ℕ) (ident : UInt16) (sender : CStr) : ℤ :=
  if dest.family = afInet then
    if length < minimumFastpingPacketSize then -1
    else
      let icmp := headerLen p 0
      if p icmp ≠ 0 then -1
      else if word p (icmp + 4) ≠ ident.toNat then -1
      else extractMagic e dest p sender (word p (icmp + 6)) (sizeofIphdr + sizeofIcmphdr)
  else if length < sizeofIcmphdr + 8 then -1
  else if p 0 ≠ 129 then -1
  else if word p 4 ≠ ident.toNat then -1
  else extractMagic e dest p sender (word p 6) sizeofIcmphdr

section Building

variable {e : Endian} {family len : ℕ} {size seq ident : UInt16} {magic : UInt64} {probe : CStr}

theorem buildPacket_eq_ok (h : buildPacket e family size seq ident magic = .ok (probe, len)) :
    minimumFastpingPacketSize ≤ size.toNat ∧ len = size.toNat - (if family = afInet then 20 else 40) ∧
      ∃ c d, probe = packetBytes e family size seq ident magic [c, d] := by
  rw [buildPacket] at h
  dsimp only at h
  split_ifs at h with hsize hfamily
  · cases h
    obtain ⟨c, d, hcksum⟩ := length_eq_two.mp (length_stored e
      (checksum e ((packetBytes e family size seq ident magic [0, 0]).take (size.toNat - sizeofIphdr))))
    refine ⟨not_lt.mp hsize, by rw [if_pos hfamily]; rfl, c, d, ?_⟩
    rw [hcksum]
  · cases h
    exact ⟨not_lt.mp hsize, by rw [if_neg hfamily]; rfl, 0, 0, rfl⟩

theorem buildPacket_ok (e : Endian) (family : ℕ) (seq ident : UInt16) (magic : UInt64)
    (hsize : minimumFastpingPacketSize ≤ size.toNat) :
    ∃ probe len, buildPacket e family size seq ident magic = .ok (probe, len) := by
  rw [buildPacket]
  dsimp only
  rw [if_neg (not_lt.mpr hsize)]
  split_ifs
  · exact ⟨_, _, rfl⟩
  · exact ⟨_, _, rfl⟩

theorem loadMagic_of_mirrored {p : Packet} {i : ℕ} {c d : UInt8}
    (h : ∀ j, 8 ≤ j → j < 16 → (packetBytes e family size seq ident magic [c, d])[j]? = some (p (i + j))) :
    loadMagic e p (i + 8) = magic.toNat := by
  have hread : read p (i + 8) 8 = hostOrder e (bytes 8 magic.toNat) := by
    refine read_eq (by simp) fun j hj => ?_
    have hj' := h (8 + j) (by omega) (by omega)
    rw [packetBytes, getElem?_append_left (by simp [htons]; omega), getElem?_append_right (by simp [htons])] at hj'
    simpa [htons, Nat.add_assoc] using hj'
  rw [loadMagic, hread, hostOrder_hostOrder, value_bytes]
  exact Nat.mod_eq_of_lt magic.toNat_lt

end Building

section Replies

variable {e : Endian} {family ihl len k : ℕ} {size seq ident : UInt16} {magic : UInt64} {probe : CStr}
  {dest : Dest} {sender : CStr} {p : Packet} {bytes : ℕ}

/-- The reply is cut off at the end of the buffer, over IPv4 behind a header of `ihl` words. -/
structure Arrives (family ihl : ℕ) (probe : CStr) (len : ℕ) (dest : Dest) (sender : CStr) (p : Packet)
    (bytes : ℕ) : Prop where
  destination : dest.family = family
  address : dest.addr.take (sockaddrLen family) = sender.take (sockaddrLen family)
  header : family = afInet → (p 0).toNat % 16 = ihl
  mirrors : MirrorsProbe family probe len p bytes
  length : bytes = min responseBufferLen (icmpOffset family p + len)

structure Recovers (e : Endian) (family ihl : ℕ) (size ident : UInt16) (k : ℕ) : Prop where
  recovered : ∀ probe len dest sender p bytes,
    buildPacket e family size (UInt16.ofNat k) ident (UInt64.ofNat k) = .ok (probe, len) →
    Arrives family ihl probe len dest sender p bytes → extractData e dest p bytes ident sender = k
  primed : ∀ probe len dest sender p bytes, buildPacket e family size 65535 ident 0 = .ok (probe, len) →
    Arrives family ihl probe len dest sender p bytes → extractData e dest p bytes ident sender = -1
  foreign : ∀ dest sender p bytes, dest.family = family → (family = afInet → LegalHeader p) →
    p (icmpOffset family p) ≠ (if family = afInet then 0 else 129) ∨ word p (icmpOffset family p + 4) ≠ ident.toNat →
    extractData e dest p bytes ident sender = -1

theorem extractData_foreign (h : dest.family = family) (hother : p (icmpOffset family p) ≠ (if family = afInet then 0 else 129) ∨
      word p (icmpOffset family p + 4) ≠ ident.toNat) :
    extractData e dest p bytes ident sender = -1 := by
  subst h
  rw [extractData]
  dsimp only
  rw [icmpOffset] at hother
  by_cases hinet : dest.family = afInet
  · rw [if_pos hinet, if_pos hinet] at hother
    rw [if_pos hinet]
    split_ifs with hshort htype hident
    · rfl
    · rfl
    · rfl
    · exact (hother.elim htype hident).elim
  · rw [if_neg hinet, if_neg hinet, Nat.zero_add] at hother
    rw [if_neg hinet]
    split_ifs with hshort htype hident
    · rfl
    · rfl
    · rfl
    · exact (hother.elim htype hident).elim

def payloadOffset (family : ℕ) : ℕ := if family = afInet then 28 else 8

theorem extractData_reply (hfamily : dest.family = family) (hlength : (if family = afInet then 56 else 16) ≤ bytes)
    (htype : p (icmpOffset family p) = if family = afInet then 0 else 129)
    (hident : word p (icmpOffset family p + 4) = ident.toNat) :
    extractData e dest p bytes ident sender =
      extractMagic e dest p sender (word p (icmpOffset family p + 6)) (payloadOffset family) := by
  subst hfamily
  rw [extractData, payloadOffset]
  dsimp only
  rw [icmpOffset] at htype hident ⊢
  by_cases hinet : dest.family = afInet
  · rw [if_pos hinet] at hlength hident
    rw [if_pos hinet, if_pos hinet] at htype
    have hlong : ¬bytes < minimumFastpingPacketSize := not_lt.mpr hlength
    rw [if_pos hinet, if_pos hinet, if_pos hinet, if_neg hlong, if_neg (not_not.mpr htype), if_neg (not_not.mpr hident)]
    rfl
  · rw [if_neg hinet] at hlength
    rw [if_neg hinet, Nat.zero_add] at hident
    rw [if_neg hinet, if_neg hinet] at htype
    have hlong : ¬bytes < sizeofIcmphdr + 8 := not_lt.mpr hlength
    rw [if_neg hinet, if_neg hinet, if_neg hinet, if_neg hlong, if_neg (not_not.mpr htype), if_neg (not_not.mpr hident)]
    rfl

theorem icmpOffset_le (family : ℕ) (p : Packet) : icmpOffset family p ≤ 60 := by
  rw [icmpOffset, headerLen]
  split_ifs <;> omega

section

variable (h : Arrives family ihl probe len dest sender p bytes)
include h

theorem Arrives.offset : icmpOffset family p = if family = afInet then ihl * 4 else 0 := by
  rw [icmpOffset]
  split_ifs with hinet
  · rw [headerLen, h.header hinet]
  · rfl

section

variable (hbuild : buildPacket e family size seq ident magic = .ok (probe, len))
include hbuild

theorem Arrives.mirrored {j : ℕ} (hj : 4 ≤ j) (hj' : j < 16) : probe[j]? = some (p (icmpOffset family p + j)) := by
  obtain ⟨hsize, hlen, -⟩ := buildPacket_eq_ok hbuild
  have hoffset := icmpOffset_le family p
  have hbytes := h.length
  simp only [minimumFastpingPacketSize, sizeofIp6Hdr, sizeofIcmphdr, responseBufferLen, sizeofIphdr] at hsize hbytes
  have hlen' : 16 ≤ len := by
    split_ifs at hlen <;> omega
  exact h.mirrors.mirrored j (by omega) (by omega) (by omega) (by omega) (by omega)

theorem Arrives.numbers : word p (icmpOffset family p + 4) = ident.toNat ∧ word p (icmpOffset family p + 6) = seq.toNat ∧
      loadMagic e p (icmpOffset family p + 8) = magic.toNat := by
  have hmirrored := fun j hj hj' => h.mirrored hbuild (j := j) hj hj'
  obtain ⟨-, -, c, d, rfl⟩ := buildPacket_eq_ok hbuild
  have h4 := some.inj (hmirrored 4 (by omega) (by omega))
  have h5 := some.inj (hmirrored 5 (by omega) (by omega))
  have h6 := some.inj (hmirrored 6 (by omega) (by omega))
  have h7 := some.inj (hmirrored 7 (by omega) (by omega))
  exact ⟨word_eq h4.symm h5.symm, word_eq h6.symm h7.symm, loadMagic_of_mirrored fun j hj hj' => hmirrored j (by omega) hj'⟩

end

theorem Arrives.extractData_eq (hihl : family = afInet → 5 ≤ ihl)
    (hbuild : buildPacket e family size seq ident magic = .ok (probe, len)) :
    extractData e dest p bytes ident sender =
      if loadMagic e p (payloadOffset family) % 2 ^ 16 ≠ seq.toNat then -1
      else int64 (loadMagic e p (payloadOffset family)) := by
  obtain ⟨hident, hseq, -⟩ := h.numbers hbuild
  obtain ⟨hsize, hlen, -⟩ := buildPacket_eq_ok hbuild
  have hbytes := h.length
  have hoffset := h.offset
  simp only [minimumFastpingPacketSize, sizeofIp6Hdr, sizeofIcmphdr, responseBufferLen, sizeofIphdr] at hsize hbytes
  have hlength : (if family = afInet then 56 else 16) ≤ bytes := by
    by_cases hinet : family = afInet
    · have hwords := hihl hinet
      rw [if_pos hinet] at hlen hoffset ⊢
      omega
    · rw [if_neg hinet] at hlen hoffset ⊢
      omega
  rw [extractData_reply h.destination hlength h.mirrors.type hident, hseq, extractMagic,
    if_neg (not_not.mpr (h.destination ▸ h.address))]

end

theorem loadMagic_lt (e : Endian) (p : Packet) (i : ℕ) : loadMagic e p i < 2 ^ 64 := by
  have hlt := value_lt (hostOrder e (read p i 8))
  rwa [length_hostOrder, length_read] at hlt

theorem recovers_of_offset (hfamily : family = afInet → ihl = 5) (hk : k < maximumFastpingPacketCount) :
    Recovers e family ihl size ident k := by
  have hmagic : ∀ {seq magic probe len dest sender p bytes}, buildPacket e family size seq ident magic = .ok (probe, len) →
      Arrives family ihl probe len dest sender p bytes →
      loadMagic e p (payloadOffset family) = magic.toNat := by
    intro seq magic probe len dest sender p bytes hbuild harrives
    rw [← (harrives.numbers hbuild).2.2, harrives.offset, payloadOffset]
    split_ifs with hinet
    · rw [hfamily hinet]
    · rfl
  have hwords : family = afInet → 5 ≤ ihl := fun hinet => (hfamily hinet).ge
  rw [maximumFastpingPacketCount] at hk
  constructor
  · intro probe len dest sender p bytes hbuild harrives
    have hk64 : (UInt64.ofNat k).toNat = k := by
      rw [UInt64.toNat_ofNat']
      omega
    have hk16 : (UInt16.ofNat k).toNat = k % 2 ^ 16 := UInt16.toNat_ofNat' ..
    rw [harrives.extractData_eq hwords hbuild, hmagic hbuild harrives, hk64, hk16, if_neg (not_not.mpr rfl),
      int64_of_range (by omega)]
  · intro probe len dest sender p bytes hbuild harrives
    rw [harrives.extractData_eq hwords hbuild, hmagic hbuild harrives]
    rfl
  · exact fun dest sender p bytes hdest _ hother => extractData_foreign hdest hother

theorem eq_of_extracted {x seq : ℕ} (hx : x < 2 ^ 64) (h : (if x % 2 ^ 16 ≠ seq then -1 else int64 x) = (k : ℤ)) : x = k := by
  simp only [int64] at h
  split_ifs at h
  all_goals omega

theorem Arrives.read_options (h : Arrives afInet 6 probe len dest sender p bytes)
    (hbuild : buildPacket e afInet size seq ident magic = .ok (probe, len)) :
    read p 28 8 = htons ident ++ htons seq ++ (hostOrder e (ByteOrder.bytes 8 magic.toNat)).take 4 := by
  have hmirrored := fun j hj hj' => h.mirrored hbuild (j := j) hj hj'
  rw [h.offset, if_pos rfl] at hmirrored
  obtain ⟨-, -, c, d, rfl⟩ := buildPacket_eq_ok hbuild
  refine read_eq (by simp [htons]) fun j hj => ?_
  rw [show 28 + j = 6 * 4 + (4 + j) by omega, ← hmirrored (4 + j) (by omega) (by omega)]
  cases e <;> interval_cases j <;> rfl

theorem recovers_zero : Recovers e afInet 6 size 0 0 := by
  constructor
  · intro probe len dest sender p bytes hbuild harrives
    have hread := harrives.read_options hbuild
    have hload : loadMagic e p 28 = 0 := by
      rw [loadMagic, hread]
      cases e <;> rfl
    rw [harrives.extractData_eq (fun _ => by omega) hbuild, payloadOffset, if_pos rfl, hload]
    rfl
  · intro probe len dest sender p bytes hbuild harrives
    have hread := harrives.read_options hbuild
    have hload : loadMagic e p 28 % 2 ^ 16 = 0 := by
      rw [loadMagic, hread]
      cases e <;> rfl
    rw [harrives.extractData_eq (fun _ => by omega) hbuild, payloadOffset, if_pos rfl, hload]
    rfl
  · exact fun dest sender p bytes hdest _ hother => extractData_foreign hdest hother

def optionsReply (ihl : ℕ) (probe : CStr) : Packet := fun i =>
  if i < ihl * 4 then if i = 0 then UInt8.ofNat (64 + ihl) else 255
  else if i = ihl * 4 then 0
  else if i = ihl * 4 + 2 ∨ i = ihl * 4 + 3 then 255
  else probe[i - ihl * 4]?.getD 0

theorem length_packetBytes (e : Endian) (family : ℕ) (size seq ident : UInt16) (magic : UInt64) (c d : UInt8) :
    (packetBytes e family size seq ident magic [c, d]).length = 16 + (size.toNat - 16) := by
  simp [packetBytes, htons]
  omega

theorem optionsReply_arrives (hihl : 5 ≤ ihl ∧ ihl ≤ 15) (hbuild : buildPacket e afInet size seq ident magic = .ok (probe, len)) :
    Arrives afInet ihl probe len ⟨afInet, []⟩ [] (optionsReply ihl probe) (min responseBufferLen (ihl * 4 + len)) := by
  obtain ⟨hsize, hlen, c, d, rfl⟩ := buildPacket_eq_ok hbuild
  rw [if_pos rfl] at hlen
  simp only [minimumFastpingPacketSize, sizeofIp6Hdr, sizeofIcmphdr] at hsize
  have hfirst : (optionsReply ihl (packetBytes e afInet size seq ident magic [c, d]) 0).toNat = 64 + ihl := by
    rw [optionsReply, if_pos (by omega), if_pos rfl, UInt8.toNat_ofNat']
    omega
  have hoffset : icmpOffset afInet (optionsReply ihl (packetBytes e afInet size seq ident magic [c, d])) = ihl * 4 := by
    rw [icmpOffset, if_pos rfl, headerLen, hfirst]
    omega
  refine
    { destination := rfl, address := rfl, header := fun _ => by rw [hfirst]; omega
      mirrors := ⟨fun _ => ?_, ?_, ?_, fun j hj _ hj0 hj2 hj3 => ?_⟩, length := by rw [hoffset] }
  · rw [LegalHeader, version, hfirst]
    omega
  · rw [hoffset]
    simp only [responseBufferLen, sizeofIphdr, sizeofIcmphdr]
    omega
  · rw [hoffset, optionsReply, if_neg (by omega), if_pos rfl, if_pos rfl]
  · rw [hoffset, optionsReply, if_neg (by omega), if_neg (by omega), if_neg (by omega), Nat.add_sub_cancel_left]
    have hget := getElem?_eq_getElem (l := packetBytes e afInet size seq ident magic [c, d]) (i := j)
      (by rw [length_packetBytes]; omega)
    rw [hget]
    rfl

theorem loadMagic_optionsReply (e : Endian) (probe : CStr) (hihl : 7 ≤ ihl) :
    maximumFastpingPacketCount ≤ loadMagic e (optionsReply ihl probe) 28 := by
  have hbyte : optionsReply ihl probe (28 + 2) = 255 := by
    rw [optionsReply]
    by_cases hseven : ihl = 7
    · rw [hseven]
      rfl
    · rw [if_pos (by omega), if_neg (by decide)]
  have hread := getElem?_read (m := optionsReply ihl probe) (i := 28) (n := 8) (j := 2) (by decide)
  rw [hbyte] at hread
  cases e with
  | little => exact le_trans (by decide) (mul_pow_le_value hread)
  | big =>
    refine le_trans (by decide) (mul_pow_le_value (j := 5) (b := 255) ?_)
    rw [hostOrder, getElem?_reverse (by simp)]
    simpa using hread

theorem ident_of_options (h : Arrives afInet 6 probe len dest sender p bytes) (hk : k < maximumFastpingPacketCount)
    (hbuild : buildPacket e afInet size seq ident (UInt64.ofNat k) = .ok (probe, len))
    (hload : loadMagic e p 28 = k) : ident = 0 ∧ k = 0 := by
  rw [maximumFastpingPacketCount] at hk
  have hk64 : (UInt64.ofNat k).toNat = k := by
    rw [UInt64.toNat_ofNat']
    omega
  have hread := h.read_options hbuild
  rw [hk64] at hread
  have hident := htons_toNat ident
  have hzero : ident.toNat = 0 ∧ k = 0 := by
    rw [loadMagic, hread] at hload
    cases e with
    | little =>
      have hbytes : (hostOrder .little (ByteOrder.bytes 8 k)).take 4 = ByteOrder.bytes 4 k := rfl
      have hlow := value_bytes 4 k
      rw [hbytes] at hload
      simp only [hostOrder, htons, cons_append, nil_append, value_cons, hlow] at hload
      omega
    | big =>
      have hbytes : (hostOrder .big (ByteOrder.bytes 8 k)).take 4 = (ByteOrder.bytes 4 (k / 256 ^ 4)).reverse := by
        simp [hostOrder, ByteOrder.bytes, range_succ, Nat.div_div_eq_div_mul]
      have hreverse : hostOrder .big (htons ident ++ htons seq ++ (ByteOrder.bytes 4 (k / 256 ^ 4)).reverse) =
          ByteOrder.bytes 4 (k / 256 ^ 4) ++ [seq.toUInt8, (seq >>> 8).toUInt8, ident.toUInt8, (ident >>> 8).toUInt8] := by
        simp [hostOrder, htons]
      have hsmall : k / 256 ^ 4 = 0 := Nat.div_eq_of_lt (by omega)
      rw [hbytes, hreverse, value_append, value_bytes, length_bytes, hsmall] at hload
      simp only [value_cons, value_nil] at hload
      omega
  exact ⟨UInt16.toNat_inj.mp hzero.1, hzero.2⟩

theorem ihl_of_recovers (hihl : 5 ≤ ihl ∧ ihl ≤ 15) (hsize : minimumFastpingPacketSize ≤ size.toNat)
    (hk : k < maximumFastpingPacketCount) (h : Recovers e afInet ihl size ident k) :
    ihl = 5 ∨ ihl = 6 ∧ ident = 0 ∧ k = 0 := by
  obtain ⟨probe, len, hbuild⟩ := buildPacket_ok e afInet (UInt16.ofNat k) ident (UInt64.ofNat k) hsize
  have harrives := optionsReply_arrives hihl hbuild
  have hextracted := h.recovered _ _ _ _ _ _ hbuild harrives
  rw [harrives.extractData_eq (fun _ => hihl.1) hbuild, payloadOffset, if_pos rfl] at hextracted
  have hload := eq_of_extracted (loadMagic_lt ..) hextracted
  by_cases hfive : ihl = 5
  · exact .inl hfive
  by_cases hsix : ihl = 6
  · subst hsix
    exact .inr ⟨rfl, ident_of_options harrives hk hbuild hload⟩
  · exfalso
    have hlarge := loadMagic_optionsReply e probe (show 7 ≤ ihl by omega)
    omega

/-- Exactly if there are no options, apart from the first index of a test with the identifier
zero. -/
theorem sequence_recovered_iff (e : Endian) (hfamily : family = afInet ∨ family = afInet6)
    (hihl : 5 ≤ ihl ∧ ihl ≤ 15) (hsize : minimumFastpingPacketSize ≤ size.toNat)
    (hk : k < maximumFastpingPacketCount) :
    Recovers e family ihl size ident k ↔ family = afInet6 ∨ ihl = 5 ∨ ihl = 6 ∧ ident = 0 ∧ k = 0 := by
  constructor
  · intro h
    rcases hfamily with rfl | hinet6
    · exact .inr (ihl_of_recovers hihl hsize hk h)
    · exact .inl hinet6
  · rintro (rfl | rfl | ⟨rfl, rfl, rfl⟩)
    · exact recovers_of_offset (fun h => absurd h (by decide)) hk
    · exact recovers_of_offset (fun _ => rfl) hk
    · rcases hfamily with rfl | rfl
      · exact recovers_zero
      · exact recovers_of_offset (fun h => absurd h (by decide)) hk

end Replies

theorem sequence_recovered_wrapped : Recovers .little afInet 5 64 0x1234 70000 :=
  (sequence_recovered_iff .little (.inl rfl) (by decide) (by decide) (by decide)).mpr (.inr (.inl rfl))

theorem sequence_lost_options : ¬Recovers .little afInet 6 64 0x1234 1 ∧
    ∃ probe len, buildPacket .little afInet 64 1 0x1234 1 = .ok (probe, len) ∧
      Arrives afInet 6 probe len ⟨afInet, []⟩ [] (optionsReply 6 probe) (min responseBufferLen (6 * 4 + len)) ∧
        extractData .little ⟨afInet, []⟩ (optionsReply 6 probe) (min responseBufferLen (6 * 4 + len)) 0x1234 [] = -1 := by
  refine ⟨fun h => ?_, ?_⟩
  · have hihl := ihl_of_recovers (by decide) (by decide) (by decide) h
    revert hihl
    decide
  · obtain ⟨probe, len, hbuild⟩ := buildPacket_ok .little afInet 1 0x1234 1
      (show minimumFastpingPacketSize ≤ (64 : UInt16).toNat by decide)
    have harrives := optionsReply_arrives (show 5 ≤ 6 ∧ 6 ≤ 15 by decide) hbuild
    refine ⟨probe, len, hbuild, harrives, ?_⟩
    rw [harrives.extractData_eq (fun _ => by decide) hbuild, payloadOffset, if_pos rfl, loadMagic, harrives.read_options hbuild]
    rfl

end Amplet.FastpingPackets
