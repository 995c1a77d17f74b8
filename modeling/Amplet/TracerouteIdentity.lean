import Amplet.IcmpProbes
import Amplet.TracerouteQueues

/-!
# What a quoted probe is matched to

Embedding of `build_ipv4_probe`, `build_ipv6_probe` and the packet part of `send_probe`
in `src/tests/traceroute/traceroute.c`, and what `get_index` and `find_outstanding_item`
make of a message that quotes a probe. The destination has ten of 16 bits, the TTL six.
-/

namespace Amplet.TracerouteIdentity
open Bytes SocketAddress TracerouteProbe TracerouteLists TracerouteQueues Option
open List hiding Vector
open DnsQuery (htons)
open IcmpPackets (packetOf)
open IcmpProbes (word_eq)

def minTracerouteProbeLen : ℕ := 40 + 8 + 4

def tracerouteDestPort : UInt16 := 33434

def ipv4Headers (e : Endian) (packetSize : UInt16) (dscp : UInt8) (id : UInt16) (ttl : ℤ)
    (ident : UInt16) (dest : BitVec 32) : CStr :=
  [0x45, dscp] ++ htons packetSize ++ htons id ++ [0, 0, UInt8.ofNat (uint8 ttl).toNat, 17, 0, 0] ++
    [0, 0, 0, 0] ++ addressBytes e (.inet dest) ++ htons ident ++ htons tracerouteDestPort ++ htons (packetSize - 20) ++ [0, 0]

def buildIpv4Probe (e : Endian) (packetSize : UInt16) (dscp : UInt8) (id : UInt16) (ttl : ℤ)
    (ident : UInt16) (dest : BitVec 32) : Except Fault CStr :=
  if packetSize.toNat < minTracerouteProbeLen then .error .assertion
  else
    .ok (ipv4Headers e packetSize dscp id ttl ident dest ++ replicate (packetSize.toNat - 28) 0)

def buildIpv6Probe (packetSize id ident : UInt16) : CStr :=
  htons id ++ htons ident ++ replicate (packetSize.toNat - 4) 0

def probeId (d : Dest) : UInt16 := UInt16.ofNat ((d.ttl * 1024 + d.id) % 2 ^ 16).toNat

def probePacket (e : Endian) (packetSize : UInt16) (dscp : UInt8) (ident : UInt16) (d : Dest) : Except Fault (Option CStr) :=
  match d.addr with
  | some (.inet dest) => (buildIpv4Probe e packetSize dscp (probeId d) d.ttl ident dest).map some
  | some (.inet6 _) => .ok (some (buildIpv6Probe packetSize (probeId d) ident))
  | _ => .ok none

/-- All but the type of service, the lengths and fragments, the TTL, the checksum and the source.
-/
def Kept (k : ℕ) : Prop := k = 0 ∨ k = 4 ∨ k = 5 ∨ k = 9 ∨ 16 ≤ k ∧ k < 28

/-- An IPv6 probe is behind headers that are not its own, with or without one for a fragment. -/
def Quotes (source : SockAddr) (probe : CStr) (p : Packet) (embedded : ℕ) : Prop :=
  match source with
  | .inet _ => ∀ k, Kept k → probe[k]? = some (p (embedded + k))
  | .inet6 _ =>
    p (embedded + 6) = 17 ∧ (∀ k < 4, probe[k]? = some (p (embedded + 48 + k))) ∨ p (embedded + 6) = 44 ∧ p (embedded + 40) = 17 ∧
        ∀ k < 4, probe[k]? = some (p (embedded + 56 + k))
  | .other _ _ => False

section Fields

variable {e : Endian} {packetSize ident : UInt16} {dscp : UInt8} {d : Dest} {probe : CStr}
  {address source : SockAddr} {p : Packet} {embedded : ℕ} {id : UInt16}

theorem probeFields_ipv4 {ttl : ℤ} {dest x : BitVec 32} (hprobe : buildIpv4Probe e packetSize dscp id ttl ident dest = .ok probe)
    (h : Quotes (.inet x) probe p embedded) :
    probeFields (.inet x) p embedded = some (id.toNat, ident.toNat) := by
  rw [buildIpv4Probe] at hprobe
  split_ifs at hprobe
  cases hprobe
  have haddress : ∃ a b c d, addressBytes e (.inet dest) = [a, b, c, d] := by
    cases e <;> exact ⟨_, _, _, _, rfl⟩
  obtain ⟨a, b, c, d, haddress⟩ := haddress
  simp only [Quotes, Kept, ipv4Headers, haddress, htons, cons_append, nil_append] at h
  have hfirst := some.inj (h 0 (by omega))
  have hprotocol := some.inj (h 9 (by omega))
  have hid := word_eq (some.inj (h 4 (by omega))).symm (some.inj (h 5 (by omega))).symm
  have hident := word_eq (some.inj (h 20 (by omega))).symm (some.inj (h 21 (by omega))).symm
  have hlength : headerLen p embedded = 20 := by
    rw [headerLen, show p embedded = 0x45 from hfirst.symm]
    rfl
  rw [probeFields, hlength, hid, hident, if_pos (by rw [← hprotocol]; rfl)]

theorem word_ipv6Probe {i : ℕ} (h : ∀ k < 4, (buildIpv6Probe packetSize id ident)[k]? = some (p (i + k))) :
    word p i = id.toNat ∧ word p (i + 2) = ident.toNat :=
  ⟨word_eq (some.inj (h 0 (by omega))).symm (some.inj (h 1 (by omega))).symm,
    word_eq (some.inj (h 2 (by omega))).symm (some.inj (h 3 (by omega))).symm⟩

theorem probeFields_ipv6 {x : Vector (BitVec 16) 8} (h : Quotes (.inet6 x) (buildIpv6Probe packetSize id ident) p embedded) :
    probeFields (.inet6 x) p embedded = some (id.toNat, ident.toNat) := by
  rcases h with ⟨hnext, hbody⟩ | ⟨hnext, hfragment, hbody⟩
  · simpa [probeFields, hnext, Nat.add_assoc] using word_ipv6Probe hbody
  · simpa [probeFields, hnext, hfragment, Nat.add_assoc] using word_ipv6Probe hbody

theorem probeFields_quotes (haddr : d.addr = some address) (hfamily : source.family = address.family)
    (hprobe : probePacket e packetSize dscp ident d = .ok (some probe))
    (h : Quotes source probe p embedded) :
    probeFields source p embedded = some ((probeId d).toNat, ident.toNat) := by
  rw [probePacket, haddr] at hprobe
  cases source with
  | inet x =>
    cases address with
    | inet dest =>
      dsimp only at hprobe
      cases hbuild : buildIpv4Probe e packetSize dscp (probeId d) d.ttl ident dest with
      | error fault =>
        rw [hbuild] at hprobe
        cases hprobe
      | ok built =>
        rw [hbuild] at hprobe
        cases hprobe
        exact probeFields_ipv4 hbuild h
    | inet6 dest => cases hfamily
    | other family hother => exact absurd hfamily.symm hother.1
  | inet6 x =>
    cases address with
    | inet dest => cases hfamily
    | inet6 dest =>
      cases hprobe
      exact probeFields_ipv6 h
    | other family hother => exact absurd hfamily.symm hother.2
  | other family hother => exact h.elim

end Fields

section Matching

def answerAt (e : Endian) (ident count : ℕ) (source : SockAddr) (p : Packet) (embedded : ℕ) :
    Option Answer :=
  (getIndex e source p embedded ident count).map fun index =>
    { source := source
      index := index
      type := getIcmpType source p
      code := getIcmpCode source p
      embeddedTtl := getTtl source p embedded }

def identify (e : Endian) (s : ProbeList) (source : SockAddr) (p : Packet) (embedded : ℕ) : Option ℕ :=
  (answerAt e s.ident s.count source p embedded).bind fun a =>
    (s.lists.findOutstandingItem (fun i => s.Answers a i) s.count).1

structure Numbered (s : ProbeList) (q : Queues) : Prop where
  linked : Linked s.lists q
  id : ∀ i ∈ q.outstanding, (s.item i).id = i
  below : ∀ i ∈ q.outstanding, i < s.count

variable {e : Endian} {s : ProbeList} {q : Queues} {a : Answer} {i d ttl count : ℕ} {embedded : ℕ}

theorem Numbered.length_le (h : Numbered s q) : q.outstanding.length ≤ s.count := by
  have hnodup : q.outstanding.Nodup := by
    have hall := h.linked.nodup
    rw [Queues.all] at hall
    exact (nodup_append.mp (nodup_append.mp hall).1).2.1
  have hsubset : q.outstanding ⊆ range s.count := fun i hi => mem_range.mpr (h.below i hi)
  simpa using (hnodup.subperm hsubset).length_le

theorem Numbered.find_eq (h : Numbered s q) : (s.lists.findOutstandingItem (fun i => s.Answers a i) s.count).1 =
      q.outstanding.find? fun i => s.Answers a i := by
  have hfind := h.linked.findOutstandingItem (fun i => s.Answers a i) h.length_le
  cases hfound : q.outstanding.find? fun i => s.Answers a i with
  | none =>
    rw [hfound] at hfind
    rw [hfind]
  | some i =>
    rw [hfound] at hfind
    obtain ⟨l', hl', -⟩ := hfind
    rw [hl']

theorem Numbered.identify_lt (h : Numbered s q) {source : SockAddr} {p : Packet}
    (hfound : identify e s source p embedded = some i) : i < 1024 := by
  obtain ⟨a, -, hfind⟩ := bind_eq_some_iff.mp hfound
  rw [h.find_eq] at hfind
  have hanswers : s.Answers a i := by simpa using find?_some hfind
  have hid := h.id i (mem_of_find?_eq_some hfind)
  have hindex := hanswers.1
  omega

theorem Numbered.find_answers (h : Numbered s q) (hindex : a.index = ttl * 1024 + d) (hd : d < 1024) :
    q.outstanding.find? (fun i => s.Answers a i) =
      if d ∈ q.outstanding ∧ (s.item d).ttl = ttl then some d else none := by
  have hanswers : ∀ i ∈ q.outstanding, s.Answers a i ↔ i = d ∧ (s.item i).ttl = ttl := by
    intro i hi
    rw [ProbeList.Answers, hindex, h.id i hi, show (ttl * 1024 + d) % 1024 = d by omega,
      show (ttl * 1024 + d) / 1024 = ttl by omega, Nat.cast_inj]
  split_ifs with hwaits
  · -- no other destination has the number
    have hfinds : (q.outstanding.find? fun i => s.Answers a i).isSome := by
      rw [find?_isSome]
      exact ⟨d, hwaits.1, decide_eq_true ((hanswers d hwaits.1).mpr ⟨rfl, hwaits.2⟩)⟩
    obtain ⟨i, hi⟩ := isSome_iff_exists.mp hfinds
    have hfound : s.Answers a i := by simpa using find?_some hi
    rw [hi, ((hanswers i (mem_of_find?_eq_some hi)).mp hfound).1]
  · rw [find?_eq_none]
    intro i hi hdecide
    obtain ⟨rfl, httl⟩ := (hanswers i hi).mp (of_decide_eq_true hdecide)
    exact hwaits ⟨hi, httl⟩

/-- Matched to that destination, if it waits for an answer to that TTL, and else to none. -/
def Identified (count d ttl : ℕ) : Prop :=
  ∀ (e : Endian) (s : ProbeList) (q : Queues) (packetSize ident : UInt16) (dscp : UInt8) (item : Dest)
    (address source : SockAddr) (probe : CStr) (p : Packet) (embedded : ℕ),
    s.count = count → s.ident = ident.toNat → Numbered s q →
    item.id = d → item.ttl = ttl → item.addr = some address →
    probePacket e packetSize dscp ident item = .ok (some probe) →
    source.family = address.family → Quotes source probe p embedded → identify e s source p embedded =
        if d ∈ q.outstanding ∧ (s.item d).ttl = ttl then some d else none

theorem getIndex_of_fields {source : SockAddr} {p : Packet} {index ident count : ℕ}
    (h : probeFields source p embedded = some (index, ident)) (hbelow : index % 1024 < count) :
    getIndex e source p embedded ident count = some index := by
  simp only [getIndex, h]
  rw [if_neg (not_not.mpr rfl), if_neg (not_le.mpr hbelow)]

theorem identified_of_lt (hd : d < count) (hsmall : d < 1024) (httl : ttl ≤ 30) :
    Identified count d ttl := by
  intro e s q packetSize ident dscp item address source probe p embedded hcount hident hnumbered hitem
    hitemTtl haddr hprobe hfamily hquotes
  have hid : (probeId item).toNat = ttl * 1024 + d := by
    rw [probeId, hitem, hitemTtl, UInt16.toNat_ofNat']
    omega
  have hfields := probeFields_quotes haddr hfamily hprobe hquotes
  rw [hid, ← hident] at hfields
  rw [identify, answerAt, getIndex_of_fields hfields (by rw [hcount]; omega), map_some, bind_some, hnumbered.find_eq]
  exact hnumbered.find_answers rfl hsmall

def waiting (count ident d ttl : ℕ) : ProbeList where
  lists :=
    { next := fun _ => none, pending := none, ready := none, readyEnd := none
      outstanding := some d, outstandingEnd := some d, done := none }
  item i := { noItem with id := i, ttl := ttl }
  sendtimer := false
  timeout := true
  stopped := false
  count := count
  doneCount := 0
  ident := ident
  totalProbes := 1

theorem waiting_numbered (ident ttl : ℕ) (hd : d < count) :
    Numbered (waiting count ident d ttl) ⟨[], [], [d], [], fun _ => noItem, false, ident, count⟩ where
  linked :=
    { pending := rfl, ready := ⟨rfl, by simp [waiting]⟩, outstanding := ⟨⟨rfl, rfl⟩, by simp [waiting]⟩
      done := rfl, nodup := nodup_singleton d }
  id i _ := rfl
  below i hi := by rwa [mem_singleton.mp hi]

def sentItem (d ttl : ℕ) : Dest := { noItem with addr := some (.inet 0x090200c0#32), id := d, ttl := ttl }

theorem length_ipv4Headers (e : Endian) (packetSize : UInt16) (dscp : UInt8) (id : UInt16) (ttl : ℤ)
    (ident : UInt16) (dest : BitVec 32) : (ipv4Headers e packetSize dscp id ttl ident dest).length = 28 := by
  cases e <;> rfl

theorem sent_quotes (d ttl : ℕ) : ∃ probe, probePacket .little 60 0 9000 (sentItem d ttl) = .ok (some probe) ∧
      Quotes (.inet 0x010200c0#32) probe (packetOf probe) 0 := by
  have hbuild : buildIpv4Probe .little 60 0 (probeId (sentItem d ttl)) ttl 9000 0x090200c0#32 = .ok _ :=
    if_neg (by decide)
  refine ⟨_, congrArg (Except.map some) hbuild, fun k hk => ?_⟩
  have hlt : k < 28 := by
    rcases hk with h | h | h | h | h <;> omega
  rw [packetOf, Nat.zero_add, getElem?_eq_getElem (by
    rw [length_append, length_ipv4Headers]
    omega), getD_some]

theorem not_identified (hd : d < count) (hlarge : 1024 ≤ d) (ttl : ℕ) : ¬Identified count d ttl := by
  intro h
  obtain ⟨probe, hprobe, hquotes⟩ := sent_quotes d ttl
  have hnumbered := waiting_numbered 9000 ttl hd
  have hidentify := h .little (waiting count 9000 d ttl) _ 60 9000 0 (sentItem d ttl) _ _ probe _ 0
    rfl rfl hnumbered rfl rfl rfl hprobe rfl hquotes
  rw [if_pos ⟨mem_singleton.mpr rfl, rfl⟩] at hidentify
  have hlt := hnumbered.identify_lt hidentify
  omega

/-- Exactly if the number of the destination fits in ten bits. -/
theorem identified_iff (hd : d < count) (httl : 1 ≤ ttl ∧ ttl ≤ 30) : Identified count d ttl ↔ d < 1024 :=
  ⟨fun h => not_le.mp fun hlarge => not_identified hd hlarge ttl h, fun hsmall => identified_of_lt hd hsmall httl.2⟩

theorem identified_hundred : Identified 100 99 30 := (identified_iff (by decide) (by decide)).mpr (by decide)

theorem identified_beyond : ¬Identified 1025 1024 1 ∧
    ∃ probe, probePacket .little 60 0 9000 (sentItem 1024 1) = .ok (some probe) ∧
      identify .little (waiting 1025 9000 0 2) (.inet 0x010200c0#32) (packetOf probe) 0 = some 0 :=
  ⟨not_identified (by decide) le_rfl 1, _, rfl, by decide⟩

end Matching

end Amplet.TracerouteIdentity
