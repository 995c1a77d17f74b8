import Amplet.DnsQuery
import Amplet.ProbeTest
import Amplet.TracerouteProbe

/-!
# Packets of the ICMP test

Embedding of `icmp_error`, `process_ipv4_packet`, `process_ipv6_packet` and
`build_probe` in `src/tests/icmp/icmp.c`, and of `src/common/checksum.c`. A packet is
the memory from the start of the buffer on, with the number of bytes that were received.
Two bytes are a number in network order, see `word`, or in the order of the machine, see
`loaded`.
-/

namespace Amplet.IcmpPackets
open Bytes ProbeTest ScheduleTime SocketAddress
open DnsQuery (htons)
open TracerouteProbe (Packet word headerLen)

structure Info where
  addr : Option ℕ
  timeSent : TimeVal
  delay : ℕ
  magic : UInt16
  reply : Bool
  errType : UInt8
  errCode : UInt8

def Info.zero : Info := ⟨none, ⟨0, 0⟩, 0, 0, false, 0, 0⟩

structure Options where
  packetSize : UInt16

abbrev IcmpGlobals (count : ℕ) := Globals Options Info count

def sizeofIphdr : ℕ := 20

def sizeofIp6Hdr : ℕ := 40

def sizeofIcmphdr : ℕ := 8

def minPacketLen : ℕ := sizeofIp6Hdr + sizeofIcmphdr + 2

def loadBytes : Endian → UInt8 → UInt8 → ℕ
  | .little, a, b => b.toNat * 256 + a.toNat
  | .big, a, b => a.toNat * 256 + b.toNat

def loaded (e : Endian) (p : Packet) (i : ℕ) : ℕ := loadBytes e (p i) (p (i + 1))

def stored (e : Endian) (x : UInt16) : CStr :=
  match e with
  | .little => (htons x).reverse
  | .big => htons x

def version (p : Packet) (i : ℕ) : ℕ := (p i).toNat / 16

def LegalHeader (p : Packet) : Prop := version p 0 = 4 ∧ 5 ≤ (p 0).toNat % 16

instance (p : Packet) : Decidable (LegalHeader p) := inferInstanceAs (Decidable (_ ∧ _))

def embedIcmp (p : Packet) : ℕ := headerLen p 0 + sizeofIcmphdr + headerLen p (headerLen p 0 + sizeofIcmphdr)

section Handlers

variable {count : ℕ}

def Info.recordError (info : Info) (type code : UInt8) : Info :=
  { info with errType := type, errCode := code, reply := if type ≠ 5 then true else info.reply }

/-- Called with the identifier and the results of the globals. -/
def icmpError (e : Endian) (p : Packet) (bytes : ℕ) (g : IcmpGlobals count) : Except Fault (IcmpGlobals count × ℤ) :=
  if LegalHeader p then
    let icmp := headerLen p 0
    let requiredBytes := icmp + sizeofIphdr + sizeofIcmphdr * 2
    if bytes < requiredBytes ∨ loaded e p 2 < requiredBytes then .ok (g, -1)
    else
      let embedIp := icmp + sizeofIcmphdr
      if version p embedIp ≠ 4 ∨ p (embedIp + 9) ≠ 1 then .ok (g, -1)
      else if p (embedIcmp p) > 18 ∨ p (embedIcmp p) ≠ 8 ∨ p (embedIcmp p + 1) ≠ 0 ∨ word p (embedIcmp p + 4) ≠ g.ident.toNat then
        .ok (g, -1)
      else
        -- the number is not compared with that of the destinations
        let seq := word p (embedIcmp p + 6)
        .ok (g.setEntry seq ((g.entry seq).recordError (p icmp) (p (icmp + 1))), 0)
  else .error .assertion

def Info.recordReply (info : Info) (now : TimeVal) : Info :=
  { info with reply := true, delay := recordedDelay now info.timeSent }

def replied (seq : ℕ) (now : TimeVal) (g : IcmpGlobals count) : IcmpGlobals count :=
  { g.setEntry seq ((g.entry seq).recordReply now) with outstanding := g.outstanding - 1 }

/-- The magic value at a position is compared with that of the entry, and the reply recorded. -/
def takeReply (e : Endian) (p : Packet) (magic seq : ℕ) (now : TimeVal) (g : IcmpGlobals count) : IcmpGlobals count × ℤ :=
  if loaded e p magic ≠ (g.entry seq).magic.toNat then (g, -1) else (replied seq now g, 0)

def processIpv4Packet (e : Endian) (p : Packet) (bytes : ℕ) (now : TimeVal) (g : IcmpGlobals count) :
    Except Fault (IcmpGlobals count × ℤ) :=
  if bytes < sizeofIphdr + sizeofIcmphdr + 2 then .ok (g, -1)
  else if LegalHeader p then
    let icmp := headerLen p 0
    if bytes < icmp + sizeofIcmphdr + 2 then .ok (g, -1)
    else if p icmp ≠ 0 then icmpError e p bytes g
    else if word p (icmp + 4) ≠ g.ident.toNat then .ok (g, -1)
    else
      let seq := word p (icmp + 6)
      if seq > count then .ok (g, -1)
      else .ok (takeReply e p (icmp + sizeofIcmphdr) seq now g)
  else .error .assertion

def processIpv6Packet (e : Endian) (p : Packet) (bytes : ℕ) (now : TimeVal) (g : IcmpGlobals count) :
    Except Fault (IcmpGlobals count × ℤ) :=
  if bytes < sizeofIcmphdr then .ok (g, -1)
  else
    let seq := word p 6
    if p 0 ≠ 129 ∨ word p 4 ≠ g.ident.toNat ∨ seq > count then .ok (g, -1)
    else .ok (takeReply e p sizeofIcmphdr seq now g)

end Handlers

section Acceptance

variable {count : ℕ} {e : Endian} {p : Packet} {bytes : ℕ} {now : TimeVal} {g : IcmpGlobals count}
  {ident : UInt16}

def Reply4 (ident : UInt16) (p : Packet) (bytes : ℕ) : Prop :=
  LegalHeader p ∧ headerLen p 0 + 10 ≤ bytes ∧ p (headerLen p 0) = 0 ∧ word p (headerLen p 0 + 4) = ident.toNat

def Reply6 (ident : UInt16) (p : Packet) (bytes : ℕ) : Prop :=
  8 ≤ bytes ∧ p 0 = 129 ∧ word p 4 = ident.toNat

def Error4 (e : Endian) (ident : UInt16) (p : Packet) (bytes : ℕ) : Prop :=
  LegalHeader p ∧ headerLen p 0 + 36 ≤ bytes ∧ headerLen p 0 + 36 ≤ loaded e p 2 ∧
    p (headerLen p 0) ≠ 0 ∧ version p (headerLen p 0 + 8) = 4 ∧ p (headerLen p 0 + 17) = 1 ∧
      p (embedIcmp p) = 8 ∧ p (embedIcmp p + 1) = 0 ∧ word p (embedIcmp p + 4) = ident.toNat

instance : Decidable (Reply4 ident p bytes) := inferInstanceAs (Decidable (_ ∧ _))

instance : Decidable (Reply6 ident p bytes) := inferInstanceAs (Decidable (_ ∧ _))

instance : Decidable (Error4 e ident p bytes) := inferInstanceAs (Decidable (_ ∧ _))

theorem LegalHeader.headerLen_ge (h : LegalHeader p) : 20 ≤ headerLen p 0 := by
  have := h.2
  rw [headerLen]
  omega

/-- The number in the quoted probe. -/
def quotedSeq (p : Packet) : ℕ := word p (embedIcmp p + 6)

def reported (p : Packet) (g : IcmpGlobals count) : IcmpGlobals count :=
  g.setEntry (quotedSeq p) ((g.entry (quotedSeq p)).recordError (p (headerLen p 0)) (p (headerLen p 0 + 1)))

theorem icmpError_error (h : Error4 e g.ident p bytes) : icmpError e p bytes g = .ok (reported p g, 0) := by
  obtain ⟨hlegal, hbytes, htotal, -, hversion, hprotocol, htype, hcode, hident⟩ := h
  have hroom : ¬ (bytes < headerLen p 0 + sizeofIphdr + sizeofIcmphdr * 2 ∨
      loaded e p 2 < headerLen p 0 + sizeofIphdr + sizeofIcmphdr * 2) := by
    simp only [sizeofIphdr, sizeofIcmphdr]
    omega
  have hquoted : ¬ (version p (headerLen p 0 + sizeofIcmphdr) ≠ 4 ∨ p (headerLen p 0 + sizeofIcmphdr + 9) ≠ 1) := by
    simp only [not_or, not_not]
    exact ⟨hversion, hprotocol⟩
  have hours : ¬ (p (embedIcmp p) > 18 ∨ p (embedIcmp p) ≠ 8 ∨ p (embedIcmp p + 1) ≠ 0 ∨
      word p (embedIcmp p + 4) ≠ g.ident.toNat) := by
    simp only [htype, hcode, hident, ne_eq, not_true_eq_false, or_false]
    decide
  dsimp only [icmpError]
  rw [if_pos hlegal, if_neg hroom, if_neg hquoted, if_neg hours]
  rfl

theorem icmpError_other (hlegal : LegalHeader p) (htype : p (headerLen p 0) ≠ 0)
    (h : ¬ Error4 e g.ident p bytes) : icmpError e p bytes g = .ok (g, -1) := by
  dsimp only [icmpError]
  rw [if_pos hlegal]
  split_ifs with hroom hquoted hours
  · rfl
  · rfl
  · rfl
  · simp only [sizeofIphdr, sizeofIcmphdr, not_or, not_lt, not_not] at hroom hquoted hours
    exact absurd ⟨hlegal, by omega, by omega, htype, hquoted.1, hquoted.2, hours.2⟩ h

theorem processIpv4Packet_reply (h : Reply4 g.ident p bytes) (hseq : word p (headerLen p 0 + 6) ≤ count) :
    processIpv4Packet e p bytes now g = .ok (takeReply e p (headerLen p 0 + 8) (word p (headerLen p 0 + 6)) now g) := by
  obtain ⟨hlegal, hbytes, htype, hident⟩ := h
  have hlen := hlegal.headerLen_ge
  dsimp only [processIpv4Packet]
  rw [if_neg (by simp only [sizeofIphdr, sizeofIcmphdr]; omega), if_pos hlegal,
    if_neg (by simp only [sizeofIcmphdr]; omega), if_neg (not_not_intro htype),
    if_neg (not_not_intro hident), if_neg (not_lt.mpr hseq)]
  rfl

theorem processIpv4Packet_error (h : Error4 e g.ident p bytes) : processIpv4Packet e p bytes now g = .ok (reported p g, 0) := by
  have hlegal := h.1
  have hbytes := h.2.1
  have htype := h.2.2.2.1
  have hlen := hlegal.headerLen_ge
  dsimp only [processIpv4Packet]
  rw [if_neg (by simp only [sizeofIphdr, sizeofIcmphdr]; omega), if_pos hlegal,
    if_neg (by simp only [sizeofIcmphdr]; omega), if_pos htype, icmpError_error h]

theorem processIpv4Packet_other (now : TimeVal) (hreply : Reply4 g.ident p bytes → count < word p (headerLen p 0 + 6))
    (herror : ¬ Error4 e g.ident p bytes) :
    processIpv4Packet e p bytes now g =
      if bytes < sizeofIphdr + sizeofIcmphdr + 2 ∨ LegalHeader p then .ok (g, -1)
      else .error .assertion := by
  dsimp only [processIpv4Packet]
  by_cases hshort : bytes < sizeofIphdr + sizeofIcmphdr + 2
  · rw [if_pos hshort, if_pos (.inl hshort)]
  by_cases hlegal : LegalHeader p
  · rw [if_pos (show bytes < _ ∨ LegalHeader p from .inr hlegal), if_neg hshort, if_pos hlegal]
    split_ifs with hroom htype hident hseq
    · rfl
    · exact icmpError_other hlegal htype herror
    · rfl
    · rfl
    · simp only [not_lt, not_not, sizeofIcmphdr] at hroom htype hident hseq
      exact absurd (hreply ⟨hlegal, hroom, htype, hident⟩) (by omega)
  · rw [if_neg hshort, if_neg hlegal, if_neg (not_or.mpr ⟨hshort, hlegal⟩)]

theorem processIpv6Packet_reply (h : Reply6 g.ident p bytes) (hseq : word p 6 ≤ count) :
    processIpv6Packet e p bytes now g = .ok (takeReply e p 8 (word p 6) now g) := by
  obtain ⟨hbytes, htype, hident⟩ := h
  have hours : ¬ (p 0 ≠ 129 ∨ word p 4 ≠ g.ident.toNat ∨ word p 6 > count) := by
    simp only [not_or, not_not, not_lt]
    exact ⟨htype, hident, hseq⟩
  dsimp only [processIpv6Packet]
  rw [if_neg (by simp only [sizeofIcmphdr]; omega), if_neg hours]
  rfl

theorem processIpv6Packet_other (hreply : Reply6 g.ident p bytes → count < word p 6) :
    processIpv6Packet e p bytes now g = .ok (g, -1) := by
  dsimp only [processIpv6Packet]
  split_ifs with hshort hours
  · rfl
  · rfl
  · simp only [not_or, not_not, not_lt, sizeofIcmphdr] at hshort hours
    exact absurd (hreply ⟨hshort, hours.1, hours.2.1⟩) (by omega)

end Acceptance

section Indices

variable {count : ℕ} {e : Endian} {p : Packet} {bytes : ℕ} {now : TimeVal} {g : IcmpGlobals count}

/-- The memory behind the array of results is neither read nor written. -/
def Within (process : IcmpGlobals count → Except Fault (IcmpGlobals count × ℤ)) (g : IcmpGlobals count) :
    Prop :=
  ∀ memory : ℕ → Info, process { g with behind := memory } = (process g).map fun r => ({ r.1 with behind := memory }, r.2)

structure IndicesBelow (e : Endian) (p : Packet) (bytes : ℕ) (now : TimeVal) (g : IcmpGlobals count) :
    Prop where
  ipv4 : Within (processIpv4Packet e p bytes now) g
  ipv6 : Within (processIpv6Packet e p bytes now) g

variable {seq magic : ℕ}

theorem entry_behind (hseq : count ≤ seq) (memory : ℕ → Info) :
    ({ g with behind := memory } : IcmpGlobals count).entry seq = memory seq := dif_neg (not_lt.mpr hseq)

theorem reported_within_iff : (∀ memory : ℕ → Info, reported p { g with behind := memory } =
    { reported p g with behind := memory }) ↔ quotedSeq p < count := by
  refine ⟨fun h => ?_, fun hlt memory => ?_⟩
  · by_contra hnot
    rw [not_lt] at hnot
    let memory : ℕ → Info := fun _ => { Info.zero with errType := p (headerLen p 0) + 1 }
    have hbehind := congrArg (fun g => (g.behind (quotedSeq p)).errType) (h memory)
    simp [reported, setEntry_of_le _ hnot, Info.recordError, memory] at hbehind
  · simp only [reported, Globals.setEntry, Globals.entry, dif_pos hlt, Globals.setInfo]

theorem loaded_lt (e : Endian) (p : Packet) (i : ℕ) : loaded e p i < 65536 := by
  have hfirst := (p i).toNat_lt
  have hsecond := (p (i + 1)).toNat_lt
  cases e with
  | little | big =>
    simp only [loaded, loadBytes]
    omega

theorem takeReply_within_iff : (∀ memory : ℕ → Info, takeReply e p magic seq now { g with behind := memory } =
      ({ (takeReply e p magic seq now g).1 with behind := memory }, (takeReply e p magic seq now g).2)) ↔ seq < count := by
  refine ⟨fun h => ?_, fun hlt memory => ?_⟩
  · by_contra hnot
    rw [not_lt] at hnot
    -- the two bytes agree with this memory, so an answer is recorded in it
    let memory : ℕ → Info := fun _ => { Info.zero with magic := UInt16.ofNat (loaded e p magic) }
    have htake := h memory
    rw [takeReply, entry_behind hnot, if_neg (by simp [memory, Nat.mod_eq_of_lt (loaded_lt e p magic)])] at htake
    have hbehind := congrArg (fun r => (r.1.behind seq).reply) htake
    simp [replied, setEntry_of_le _ hnot, Info.recordReply, memory, Info.zero] at hbehind
  · simp only [takeReply, replied, Globals.setEntry, Globals.entry, dif_pos hlt, Globals.setInfo]
    split_ifs <;> rfl

theorem ok_within_iff {f : IcmpGlobals count → IcmpGlobals count × ℤ}
    {process : IcmpGlobals count → Except Fault (IcmpGlobals count × ℤ)}
    (h : ∀ memory : ℕ → Info, process { g with behind := memory } = .ok (f { g with behind := memory })) :
    Within process g ↔ ∀ memory : ℕ → Info, f { g with behind := memory } = ({ (f g).1 with behind := memory }, (f g).2) := by
  refine forall_congr' fun memory => ?_
  rw [h memory, show process g = .ok (f g) from h g.behind]
  exact ⟨Except.ok.inj, congrArg _⟩

theorem within4_iff : Within (processIpv4Packet e p bytes now) g ↔ (Reply4 g.ident p bytes → word p (headerLen p 0 + 6) ≠ count) ∧
      (Error4 e g.ident p bytes → word p (embedIcmp p + 6) < count) := by
  by_cases herror : Error4 e g.ident p bytes
  · have hreply : ¬ Reply4 g.ident p bytes := fun hreply => herror.2.2.2.1 hreply.2.2.1
    rw [ok_within_iff (f := fun g => (reported p g, 0)) fun memory => processIpv4Packet_error herror]
    simp only [Prod.mk.injEq, and_true]
    rw [reported_within_iff]
    exact ⟨fun h => ⟨fun hr => absurd hr hreply, fun _ => h⟩, fun h => h.2 herror⟩
  by_cases hreply : Reply4 g.ident p bytes ∧ word p (headerLen p 0 + 6) ≤ count
  · rw [ok_within_iff fun memory => processIpv4Packet_reply hreply.1 hreply.2, takeReply_within_iff]
    exact ⟨fun h => ⟨fun _ => h.ne, fun he => absurd he herror⟩, fun h => lt_of_le_of_ne hreply.2 (h.1 hreply.1)⟩
  · rw [not_and, not_le] at hreply
    refine iff_of_true (fun memory => ?_) ⟨fun hr => (hreply hr).ne', fun he => absurd he herror⟩
    rw [processIpv4Packet_other now hreply herror, processIpv4Packet_other (g := { g with behind := memory }) now hreply herror]
    split_ifs <;> rfl

theorem within6_iff : Within (processIpv6Packet e p bytes now) g ↔ (Reply6 g.ident p bytes → word p 6 ≠ count) := by
  by_cases hreply : Reply6 g.ident p bytes ∧ word p 6 ≤ count
  · rw [ok_within_iff fun memory => processIpv6Packet_reply hreply.1 hreply.2, takeReply_within_iff]
    exact ⟨fun h _ => h.ne, fun h => lt_of_le_of_ne hreply.2 (h hreply.1)⟩
  · rw [not_and, not_le] at hreply
    refine iff_of_true (fun memory => ?_) fun hr => (hreply hr).ne'
    rw [processIpv6Packet_other hreply, processIpv6Packet_other (g := { g with behind := memory }) hreply]
    rfl

theorem indicesBelow_iff (e : Endian) (p : Packet) (bytes : ℕ) (now : TimeVal) (g : IcmpGlobals count) :
    IndicesBelow e p bytes now g ↔ (Reply4 g.ident p bytes → word p (headerLen p 0 + 6) ≠ count) ∧
        (Reply6 g.ident p bytes → word p 6 ≠ count) ∧ (Error4 e g.ident p bytes → word p (embedIcmp p + 6) < count) := by
  constructor
  · rintro ⟨h4, h6⟩
    rw [within4_iff] at h4
    exact ⟨h4.1, within6_iff.mp h6, h4.2⟩
  · rintro ⟨hreply4, hreply6, herror⟩
    exact ⟨within4_iff.mpr ⟨hreply4, herror⟩, within6_iff.mpr hreply6⟩

def packetOf (data : CStr) : Packet := fun i => data[i]?.getD 0

def exampleGlobals (count : ℕ) : IcmpGlobals count where
  options := ⟨84⟩
  sockets := ⟨3, 4⟩
  dests := fun _ => some (.inet 0xc0000201)
  info := fun _ => Info.zero
  behind := fun _ => Info.zero
  ident := 0x1234
  index := 0
  outstanding := 0
  nextpackettimer := true
  losstimer := false
  stopped := false

def ipHeader (totalLength : UInt16) : CStr :=
  [0x45, 0] ++ htons totalLength ++ [0, 0, 0, 0, 64, 1] ++ List.replicate 10 0

def icmpHeader (type code : UInt8) (ident seq : UInt16) : CStr :=
  [type, code, 0, 0] ++ htons ident ++ htons seq

theorem indices_beyond : ¬ IndicesBelow .little (packetOf (ipHeader 30 ++ icmpHeader 0 0 0x1234 1)) 30 ⟨0, 0⟩ (exampleGlobals 1) ∧
      ¬ IndicesBelow .little (packetOf (ipHeader 56 ++ icmpHeader 3 1 0 0 ++ ipHeader 84 ++ icmpHeader 8 0 0x1234 0xffff)) 56
        ⟨0, 0⟩ (exampleGlobals 1) := by
  constructor
  · intro h
    exact (within4_iff.mp h.ipv4).1 (by decide) (by decide)
  · intro h
    have hbelow := (within4_iff.mp h.ipv4).2 (by decide)
    exact absurd hbelow (by decide)

end Indices

section Results

variable {count : ℕ} {e : Endian} {p : Packet} {bytes : ℕ} {now : TimeVal} {g g' : IcmpGlobals count}
  {result : ℤ}

theorem takeReply_cases (h : takeReply e p magic seq now g = (g', result)) :
    (loaded e p magic ≠ (g.entry seq).magic.toNat ∧ g' = g ∧ result = -1) ∨
      loaded e p magic = (g.entry seq).magic.toNat ∧ g' = replied seq now g ∧ result = 0 := by
  rw [takeReply] at h
  split_ifs at h with hmagic
  · cases h
    exact .inl ⟨hmagic, rfl, rfl⟩
  · cases h
    exact .inr ⟨not_not.mp hmagic, rfl, rfl⟩

def Answers4 (e : Endian) (p : Packet) (bytes : ℕ) (g : IcmpGlobals count) (seq : ℕ) : Prop :=
  Reply4 g.ident p bytes ∧ word p (headerLen p 0 + 6) = seq ∧ loaded e p (headerLen p 0 + 8) = (g.entry seq).magic.toNat

def Answers6 (e : Endian) (p : Packet) (bytes : ℕ) (g : IcmpGlobals count) (seq : ℕ) : Prop :=
  Reply6 g.ident p bytes ∧ word p 6 = seq ∧ loaded e p 8 = (g.entry seq).magic.toNat

instance (seq : ℕ) : Decidable (Answers4 e p bytes g seq) := inferInstanceAs (Decidable (_ ∧ _))

instance (seq : ℕ) : Decidable (Answers6 e p bytes g seq) := inferInstanceAs (Decidable (_ ∧ _))

theorem processIpv4Packet_cases (h : processIpv4Packet e p bytes now g = .ok (g', result)) :
    (g' = g ∧ result = -1 ∧ (∀ seq ≤ count, ¬ Answers4 e p bytes g seq) ∧ ¬ Error4 e g.ident p bytes) ∨
      (∃ seq ≤ count, Answers4 e p bytes g seq ∧ g' = replied seq now g ∧ result = 0) ∨
        Error4 e g.ident p bytes ∧ g' = reported p g ∧ result = 0 := by
  by_cases herror : Error4 e g.ident p bytes
  · rw [processIpv4Packet_error herror] at h
    cases h
    exact .inr (.inr ⟨herror, rfl, rfl⟩)
  by_cases hreply : Reply4 g.ident p bytes ∧ word p (headerLen p 0 + 6) ≤ count
  · rw [processIpv4Packet_reply hreply.1 hreply.2] at h
    obtain ⟨hmagic, rfl, rfl⟩ | ⟨hmagic, rfl, rfl⟩ := takeReply_cases (Except.ok.inj h)
    · refine .inl ⟨rfl, rfl, fun seq _ hseq => hmagic ?_, herror⟩
      rw [hseq.2.1]
      exact hseq.2.2
    · exact .inr (.inl ⟨_, hreply.2, ⟨hreply.1, rfl, hmagic⟩, rfl, rfl⟩)
  · rw [not_and, not_le] at hreply
    rw [processIpv4Packet_other now hreply herror] at h
    split_ifs at h
    cases h
    refine .inl ⟨rfl, rfl, fun seq hle hseq => ?_, herror⟩
    exact absurd (hseq.2.1 ▸ hreply hseq.1) (not_lt.mpr hle)

theorem processIpv6Packet_cases (h : processIpv6Packet e p bytes now g = .ok (g', result)) :
    (g' = g ∧ result = -1 ∧ ∀ seq ≤ count, ¬ Answers6 e p bytes g seq) ∨
      ∃ seq ≤ count, Answers6 e p bytes g seq ∧ g' = replied seq now g ∧ result = 0 := by
  by_cases hreply : Reply6 g.ident p bytes ∧ word p 6 ≤ count
  · rw [processIpv6Packet_reply hreply.1 hreply.2] at h
    obtain ⟨hmagic, rfl, rfl⟩ | ⟨hmagic, rfl, rfl⟩ := takeReply_cases (Except.ok.inj h)
    · refine .inl ⟨rfl, rfl, fun seq _ hseq => hmagic ?_⟩
      rw [hseq.2.1]
      exact hseq.2.2
    · exact .inr ⟨_, hreply.2, ⟨hreply.1, rfl, hmagic⟩, rfl, rfl⟩
  · rw [not_and, not_le] at hreply
    cases (processIpv6Packet_other hreply).symm.trans h
    refine .inl ⟨rfl, rfl, fun seq hle hseq => ?_⟩
    exact absurd (hseq.2.1 ▸ hreply hseq.1) (not_lt.mpr hle)

end Results

section Probe

def sumWords (e : Endian) : CStr → ℕ
  | a :: b :: data => loadBytes e a b + sumWords e data
  | [a] => a.toNat
  | [] => 0

def foldCarry (sum : ℕ) : ℕ :=
  if 65536 ≤ sum then foldCarry (sum % 65536 + sum / 65536) else sum
decreasing_by omega

def checksum (e : Endian) (data : CStr) : UInt16 := ~~~ UInt16.ofNat (foldCarry (sumWords e data))

def probeBytes (e : Endian) (family packetSize seq : ℕ) (ident magic : UInt16) (cksum : CStr) : CStr :=
  [if family = afInet then 8 else 128, 0] ++ cksum ++ htons ident ++ htons (UInt16.ofNat seq) ++
    stored e magic ++ List.replicate (packetSize - 10) 0

def buildProbe (e : Endian) (family packetSize seq : ℕ) (ident magic : UInt16) : Except Fault (CStr × ℕ) :=
  let probe := probeBytes e family packetSize seq ident magic
  if packetSize < minPacketLen then .error .assertion
  else if family = afInet then
    let length := packetSize - sizeofIphdr
    .ok (probe (stored e (checksum e ((probe [0, 0]).take length))), length)
  else .ok (probe [0, 0], packetSize - sizeofIp6Hdr)

end Probe

end Amplet.IcmpPackets
