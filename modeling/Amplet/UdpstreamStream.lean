import Amplet.ByteOrder
import Amplet.IcmpPackets
import Amplet.UdpstreamReport
import Mathlib.Data.Int.CardIntervalMod

/-!
# Streams of the udpstream test

Embedding of `send_udp_stream`, `receive_udp_stream` and `receive_reflected_packets` in
`src/tests/udpstream/udpstream_common.c`. The packets that reach a socket are a list,
each with the time that passes before it arrives. Every packet is read into the same
buffer on the stack, so that a short one leaves there what was before. A packet begins
with the time that it was sent, and its index.
-/

namespace Amplet.UdpstreamStream
open List Option ByteOrder Bytes IcmpPackets ProbeTest ScheduleTime SignedWords SocketAddress
open UdpstreamReport (Summary)

abbrev Options := UdpstreamReport.Options

def maximumUdpstreamPacketLength : ℕ := 1500

def udpstreamLossTimeout : ℕ := 2000000

def sizeofUdphdr : ℕ := 8

def sizeofPayload : ℕ := 20

abbrev Buffer := ℕ → UInt8

def ntoh (p : Buffer) (i n : ℕ) : ℕ := value (read p i n).reverse

def hton (n x : ℕ) : CStr := (bytes n x).reverse

def payloadIndex (p : Buffer) : ℕ := ntoh p 16 4

def payloadTime (p : Buffer) : TimeVal := ⟨int64 (ntoh p 0 8), int64 (ntoh p 8 8)⟩

structure Datagram where
  data : CStr
  time : TimeVal
deriving DecidableEq, Repr

structure Arrival where
  gap : ℕ
  datagram : Datagram
deriving DecidableEq, Repr

def getPacket (wait : ℕ) : List Arrival → Option Datagram × ℕ × List Arrival
  | [] => (none, 0, [])
  | a :: rest =>
    if a.gap ≤ wait then (some a.datagram, wait - a.gap, rest)
    else (none, 0, { a with gap := a.gap - wait } :: rest)

def Datagram.received (d : Datagram) : CStr := d.data.take maximumUdpstreamPacketLength

def fill (buffer : Buffer) (data : CStr) : Buffer := fun i => data[i]?.getD (buffer i)

structure Receiver where
  buffer : Buffer
  arrivals : List Arrival
  times : ℕ → TimeVal
  reflected : List CStr

def Reflects (options : Options) (index : ℕ) : Prop :=
  0 < options.rttSamples.toNat ∧ index % options.rttSamples.toNat = 0

instance (options : Options) (index : ℕ) : Decidable (Reflects options index) :=
  inferInstanceAs (Decidable (_ ∧ _))

def Receiver.record (options : Options) (r : Receiver) (d : Datagram) : Receiver :=
  let buffer := fill r.buffer d.received
  let index := payloadIndex buffer
  if index < options.packetCount.toNat then
    { r with
      buffer := buffer
      times := Function.update r.times index (timerSub d.time (payloadTime buffer))
      reflected := if Reflects options index then r.reflected ++ [d.received] else r.reflected }
  else { r with buffer := buffer }

def Receiver.next (options : Options) (r : Receiver) : Receiver :=
  match getPacket udpstreamLossTimeout r.arrivals with
  | (none, _, rest) => { r with arrivals := rest }
  | (some d, _, rest) =>
    if d.received.length = 0 then { r with arrivals := rest }
    else Receiver.record options { r with arrivals := rest } d

def receiveUdpStream (options : Options) (stack : Buffer) (times : ℕ → TimeVal) (arrivals : List Arrival) :
    Receiver :=
  (Receiver.next options)^[options.packetCount.toNat] ⟨stack, arrivals, times, []⟩

/-- The packet number `index` is sent at `clock index`; `stack index` is what the buffer for
replies holds then. -/
structure SendEnv where
  setsDscp : Bool
  allocates : ℕ → Bool
  clock : ℕ → TimeVal
  sendto : ℕ → Bool
  stack : ℕ → Buffer

def Summary.add (rtt : Summary) (value : UInt32) : Summary :=
  ⟨if value > rtt.maximum then value else rtt.maximum, if value < rtt.minimum then value else rtt.minimum, rtt.samples + 1⟩

def reflectedPackets (expected : ℕ) : ℕ → Buffer → Summary → List Arrival → Summary × List Arrival
  | _, _, rtt, [] => (rtt, [])
  | wait, buffer, rtt, a :: rest =>
    if expected ≤ rtt.samples.toNat then (rtt, a :: rest)
    else
      match getPacket wait (a :: rest) with
      | (none, _, later) => (rtt, later)
      | (some d, wait, _) =>
        -- a packet without bytes ends the loop as a timeout does
        if d.received.length = 0 then (rtt, rest)
        else
          let buffer := fill buffer d.received
          reflectedPackets expected wait buffer (Summary.add rtt (UInt32.ofInt (diffTvUs d.time (payloadTime buffer)))) rest

def receiveReflectedPackets (wait : ℕ) (expected : ℕ) (buffer : Buffer) (rtt : Summary)
    (arrivals : List Arrival) : Except Fault (Summary × List Arrival) :=
  if expected = 0 then .error .assertion else .ok (reflectedPackets expected wait buffer rtt arrivals)

def payloadLen (family : ℕ) (packetSize : UInt16) : Option ℕ :=
  if family = afInet then some (((packetSize.toNat - sizeofIphdr - sizeofUdphdr : ℤ) % 2 ^ 64).toNat)
  else if family = afInet6 then some (((packetSize.toNat - sizeofIp6Hdr - sizeofUdphdr : ℤ) % 2 ^ 64).toNat)
  else none

def expected (options : Options) : ℕ := options.packetCount.toNat / options.rttSamples.toNat

def payload (len : ℕ) (now : TimeVal) (index : ℕ) : CStr :=
  hton 8 (now.sec % 2 ^ 64).toNat ++ hton 8 (now.usec % 2 ^ 64).toNat ++ hton 4 index ++ replicate (len - sizeofPayload) 0

structure Sender where
  sent : List CStr
  rtt : Summary
  arrivals : List Arrival

def spacing (options : Options) : ℕ := (int32 options.packetSpacing.toNat).toNat

def sendPackets (env : SendEnv) (options : Options) (len : ℕ) : ℕ → ℕ → Sender → Except Fault (Bool × Sender)
  | 0, _, s => .ok (true, s)
  | n + 1, index, s =>
    -- the payload is written without a look at its length, or at whether there is memory for it
    if len < sizeofPayload || !env.allocates len then .error .memory
    else if !env.sendto index then .ok (false, s)
    else if 0 < options.rttSamples then do
      let (rtt, arrivals) ← receiveReflectedPackets (spacing options) (expected options) (env.stack index) s.rtt s.arrivals
      sendPackets env options len n (index + 1) ⟨s.sent ++ [payload len (env.clock index) index], rtt, arrivals⟩
    else
      sendPackets env options len n (index + 1)
        { s with sent := s.sent ++ [payload len (env.clock index) index] }

def finishStream (env : SendEnv) (options : Options) (result : Bool × Sender) : Except Fault (List CStr × Option Summary) :=
  let s := result.2
  if !result.1 then .ok (s.sent, none)
  else if 0 < options.rttSamples then do
    let (rtt, _) ← receiveReflectedPackets udpstreamLossTimeout (expected options)
      (env.stack options.packetCount.toNat) s.rtt s.arrivals
    .ok (s.sent, some rtt)
  else .ok (s.sent, none)

def sendUdpStream (env : SendEnv) (family : ℕ) (options : Options) (arrivals : List Arrival) :
    Except Fault (List CStr × Option Summary) :=
  match payloadLen family options.packetSize with
  | none => .ok ([], none)
  | some len =>
    if options.dscp ≠ 0 ∧ env.setsDscp = false then .ok ([], none)
    else
      sendPackets env options len options.packetCount.toNat 0 ⟨[], ⟨0, UInt32.ofNat (2 ^ 32 - 1), 0⟩, arrivals⟩ >>=
        finishStream env options

section Payload

variable {d : Datagram} {buffer : Buffer} {p q : Buffer} {i n x len : ℕ} {as bs cs : CStr}

def Datagram.index (d : Datagram) : Option ℕ :=
  if sizeofPayload ≤ d.data.length then some (payloadIndex (packetOf d.data)) else none

def Datagram.sent (d : Datagram) : TimeVal := payloadTime (packetOf d.data)

theorem Datagram.index_eq_some : d.index = some i ↔ sizeofPayload ≤ d.data.length ∧ payloadIndex (packetOf d.data) = i := by
  rw [Datagram.index]
  split_ifs with h
  · simp [h]
  · simp [h]

theorem received_ne_nil (h : d.index = some i) : ¬d.received.length = 0 := by
  have hpayload := (Datagram.index_eq_some.mp h).1
  simp only [sizeofPayload] at hpayload
  simp only [Datagram.received, maximumUdpstreamPacketLength, length_take]
  omega

theorem ntoh_congr (h : ∀ j < n, p (i + j) = q (i + j)) : ntoh p i n = ntoh q i n := by
  have hread : read p i n = read q i n := map_congr_left fun j hj => h j (mem_range.mp hj)
  rw [ntoh, ntoh, hread]

theorem payload_congr (h : ∀ j < sizeofPayload, p j = q j) : payloadIndex p = payloadIndex q ∧ payloadTime p = payloadTime q := by
  rw [sizeofPayload] at h
  have hsec := ntoh_congr (i := 0) (n := 8) fun j hj => h (0 + j) (by omega)
  have husec := ntoh_congr (i := 8) (n := 8) fun j hj => h (8 + j) (by omega)
  refine ⟨ntoh_congr fun j hj => h (16 + j) (by omega), ?_⟩
  rw [payloadTime, payloadTime, hsec, husec]

theorem payload_fill (h : sizeofPayload ≤ d.data.length) :
    payloadIndex (fill buffer d.received) = payloadIndex (packetOf d.data) ∧
      payloadTime (fill buffer d.received) = payloadTime (packetOf d.data) := by
  refine payload_congr fun j hj => ?_
  have hmax : j < maximumUdpstreamPacketLength := hj.trans (by decide)
  rw [fill, packetOf, Datagram.received, getElem?_take_of_lt hmax, getElem?_eq_getElem (hj.trans_le h), getD_some, getD_some]

theorem read_packetOf (as bs cs : CStr) : read (packetOf (as ++ bs ++ cs)) as.length bs.length = bs := by
  refine read_eq rfl fun j hj => ?_
  rw [packetOf, append_assoc, getElem?_append_right (by omega), Nat.add_sub_cancel_left,
    getElem?_append_left hj, getElem?_eq_getElem hj, getD_some]

theorem ntoh_hton (as cs : CStr) (hx : x < 256 ^ n) : ntoh (packetOf (as ++ hton n x ++ cs)) as.length n = x := by
  have hread := read_packetOf as (hton n x) cs
  rw [hton, length_reverse, length_bytes] at hread
  rw [ntoh, hton, hread, reverse_reverse, value_bytes, Nat.mod_eq_of_lt hx]

theorem length_payload (len : ℕ) (now : TimeVal) (index : ℕ) :
    (payload len now index).length = sizeofPayload + (len - sizeofPayload) := by
  simp [payload, hton, sizeofPayload]
  omega

theorem index_payload {now : TimeVal} (h : d.data = payload len now x) (hx : x < 2 ^ 32) : d.index = some x := by
  refine Datagram.index_eq_some.mpr ⟨by rw [h, length_payload]; omega, ?_⟩
  have hlength : (hton 8 (now.sec % 2 ^ 64).toNat ++ hton 8 (now.usec % 2 ^ 64).toNat).length = 16 := by
    simp [hton]
  have hindex := ntoh_hton (n := 4) (hton 8 (now.sec % 2 ^ 64).toNat ++ hton 8 (now.usec % 2 ^ 64).toNat)
    (replicate (len - sizeofPayload) 0) (show x < 256 ^ 4 by omega)
  rw [hlength] at hindex
  rw [h, payloadIndex, payload, hindex]

end Payload

section Reflecting

variable {options : Options} {r : Receiver} {a : Arrival} {rest arrivals : List Arrival} {k n : ℕ}
  {count : ℕ}

theorem next_whole (harrivals : r.arrivals = a :: rest) (hgap : a.gap ≤ udpstreamLossTimeout)
    (hindex : a.datagram.index = some k) :
    Receiver.next options r = Receiver.record options { r with arrivals := rest } a.datagram := by
  rw [Receiver.next, harrivals, getPacket, if_pos hgap]
  dsimp only
  rw [if_neg (received_ne_nil hindex)]

@[simp] theorem record_arrivals (options : Options) (r : Receiver) (d : Datagram) :
    (r.record options d).arrivals = r.arrivals := by
  rw [Receiver.record]
  split_ifs <;> rfl

theorem record_reflected {d : Datagram} (hindex : d.index = some k) (hk : k < options.packetCount.toNat) :
    (r.record options d).reflected =
      if Reflects options k then r.reflected ++ [d.received] else r.reflected := by
  obtain ⟨hlength, rfl⟩ := Datagram.index_eq_some.mp hindex
  rw [Receiver.record, (payload_fill hlength).1, if_pos hk]

structure InOrder (count : ℕ) (arrivals : List Arrival) : Prop where
  length : arrivals.length = count
  index : ∀ i (a : Arrival), arrivals[i]? = some a → a.datagram.index = some i
  gap : ∀ a ∈ arrivals, a.gap ≤ udpstreamLossTimeout

section

variable (h : InOrder options.packetCount.toNat arrivals) (stack : Buffer) (times : ℕ → TimeVal)
include h

theorem InOrder.reflected (hn : n ≤ options.packetCount.toNat) :
    ((Receiver.next options)^[n] ⟨stack, arrivals, times, []⟩).arrivals = arrivals.drop n ∧
      ((Receiver.next options)^[n] ⟨stack, arrivals, times, []⟩).reflected.length = Nat.count (Reflects options) n := by
  induction n with
  | zero => exact ⟨rfl, rfl⟩
  | succ n ih =>
    obtain ⟨harrivals, hreflected⟩ := ih (by omega)
    have hlt : n < arrivals.length := by
      rw [h.length]
      omega
    have hget := getElem?_eq_getElem hlt
    rw [drop_eq_getElem_cons hlt] at harrivals
    have hindex := h.index n _ hget
    rw [Function.iterate_succ_apply', next_whole harrivals (h.gap _ (getElem_mem hlt)) hindex, record_arrivals,
      record_reflected hindex hn, Nat.count_succ]
    refine ⟨rfl, ?_⟩
    split_ifs
    · rw [length_append, hreflected]
      rfl
    · exact hreflected

theorem receiveUdpStream_reflected : (receiveUdpStream options stack times arrivals).reflected.length =
      Nat.count (Reflects options) options.packetCount.toNat :=
  (h.reflected stack times le_rfl).2

end

theorem count_reflects (hsamples : 0 < options.rttSamples.toNat) (n : ℕ) : Nat.count (Reflects options) n =
      n / options.rttSamples.toNat + if 0 < n % options.rttSamples.toNat then 1 else 0 := by
  have hcard := Nat.count_modEq_card n hsamples 0
  rw [Nat.zero_mod] at hcard
  rw [← hcard]
  have hiff : ∀ k, Reflects options k ↔ k ≡ 0 [MOD options.rttSamples.toNat] := fun k =>
    ⟨fun h => h.2.trans (Nat.zero_mod _).symm, fun h => ⟨hsamples, Eq.trans h (Nat.zero_mod _)⟩⟩
  exact le_antisymm (Nat.count_mono_left fun k _ => (hiff k).mp) (Nat.count_mono_left fun k _ => (hiff k).mpr)

theorem inOrder_of_payloads {len : ℕ} {clock : ℕ → TimeVal} (hcount : count ≤ 2 ^ 32)
    (hdata : arrivals.map (·.datagram.data) = (range count).map fun i => payload len (clock i) i)
    (hgap : ∀ a ∈ arrivals, a.gap ≤ udpstreamLossTimeout) : InOrder count arrivals := by
  have hlength : arrivals.length = count := by
    simpa using congrArg length hdata
  refine ⟨hlength, fun i a hi => ?_, hgap⟩
  have hi' : i < count := hlength ▸ (List.getElem?_eq_some_iff.mp hi).1
  have hget := congrArg (·[i]?) hdata
  simp only [getElem?_map, hi, map_some, getElem?_range hi', some.injEq] at hget
  exact index_payload hget (by omega)

def burst (count : ℕ) : List Arrival :=
  (range count).map fun i => ⟨0, payload sizeofPayload ⟨0, 0⟩ i, ⟨0, 0⟩⟩

theorem burst_inOrder (hcount : count ≤ 2 ^ 32) : InOrder count (burst count) := by
  have hdata : (burst count).map (·.datagram.data) =
      (range count).map fun i => payload sizeofPayload ((fun _ => ⟨0, 0⟩ : ℕ → TimeVal) i) i := by
    simp [burst]
  exact inOrder_of_payloads hcount hdata (by simp [burst])

end Reflecting

section Sending

variable {env : SendEnv} {options : Options} {len n index wait expected' : ℕ} {s s' : Sender} {complete : Bool}
  {arrivals reflections : List Arrival} {buffer : Buffer} {rtt : Summary}

theorem receiveReflectedPackets_ok (h : 0 < expected') (wait : ℕ) (buffer : Buffer) (rtt : Summary) (arrivals : List Arrival) :
    receiveReflectedPackets wait expected' buffer rtt arrivals = .ok (reflectedPackets expected' wait buffer rtt arrivals) := by
  rw [receiveReflectedPackets, if_neg (by omega)]

theorem sendPackets_ne_assertion (h : 0 < expected options) : sendPackets env options len n index s ≠ .error .assertion := by
  induction n generalizing index s with
  | zero => simp [sendPackets]
  | succ n ih =>
    rw [sendPackets, receiveReflectedPackets_ok h]
    split_ifs
    · simp
    · simp
    · exact ih
    · exact ih

theorem finishStream_ne_assertion (h : 0 < expected options) (result : Bool × Sender) :
    finishStream env options result ≠ .error .assertion := by
  rw [finishStream, receiveReflectedPackets_ok h]
  dsimp only
  split_ifs <;> simp

theorem sendUdpStream_cases (env : SendEnv) (family : ℕ) (options : Options) (arrivals : List Arrival) :
    sendUdpStream env family options arrivals = .ok ([], none) ∨ ∃ len, sendUdpStream env family options arrivals =
        sendPackets env options len options.packetCount.toNat 0 ⟨[], ⟨0, UInt32.ofNat (2 ^ 32 - 1), 0⟩, arrivals⟩ >>=
          finishStream env options := by
  rw [sendUdpStream]
  cases payloadLen family options.packetSize with
  | none => exact .inl rfl
  | some len =>
    dsimp only
    split_ifs
    · exact .inl rfl
    · exact .inr ⟨len, rfl⟩

theorem sendUdpStream_ne_assertion (h : 0 < expected options) (env : SendEnv) (family : ℕ)
    (arrivals : List Arrival) : sendUdpStream env family options arrivals ≠ .error .assertion := by
  rcases sendUdpStream_cases env family options arrivals with hnone | ⟨len, hloop⟩
  · rw [hnone]
    simp
  · rw [hloop]
    cases hsend : sendPackets env options len options.packetCount.toNat 0 ⟨[], ⟨0, UInt32.ofNat (2 ^ 32 - 1), 0⟩, arrivals⟩ with
    | error fault =>
      intro herror
      cases herror
      exact sendPackets_ne_assertion h hsend
    | ok result => exact finishStream_ne_assertion h result

end Sending

structure SamplesAgree (options : Options) : Prop where
  reflected : ∀ stack times arrivals, InOrder options.packetCount.toNat arrivals →
    (receiveUdpStream options stack times arrivals).reflected.length = expected options
  positive : ∀ env family arrivals, sendUdpStream env family options arrivals ≠ .error .assertion

theorem samples_agree_iff {options : Options} (hcount : 1 ≤ options.packetCount.toNat) (hsamples : 1 ≤ options.rttSamples.toNat) :
    SamplesAgree options ↔ options.packetCount.toNat % options.rttSamples.toNat = 0 := by
  have hreflected := count_reflects hsamples options.packetCount.toNat
  constructor
  · intro h
    have hbound := options.packetCount.toNat_lt
    have harrivals := burst_inOrder (show options.packetCount.toNat ≤ 2 ^ 32 by omega)
    have hagree := h.reflected (fun _ => 0) (fun _ => ⟨0, 0⟩) _ harrivals
    rw [receiveUdpStream_reflected harrivals, hreflected, expected] at hagree
    split_ifs at hagree with hrest <;> omega
  · intro hmod
    rw [if_neg (by omega), add_zero] at hreflected
    constructor
    · intro stack times arrivals harrivals
      rw [receiveUdpStream_reflected harrivals, hreflected, expected]
    · refine fun env family arrivals => sendUdpStream_ne_assertion ?_ env family arrivals
      exact Nat.div_pos (Nat.le_of_dvd hcount (Nat.dvd_of_mod_eq_zero hmod)) hsamples

theorem samples_agree_even : SamplesAgree ⟨8826, 100, 20, 20000, 10, 2, 0⟩ :=
  (samples_agree_iff (by decide) (by decide)).mpr (by decide)

/-- Of 21 packets every second is reflected, both ends included, and ten are waited for. Sampling
every tenth of five packets fails the assertion. -/
theorem samples_disagree :
    let options : Options := ⟨8826, 100, 21, 20000, 10, 2, 0⟩
    InOrder 21 (burst 21) ∧ (receiveUdpStream options (fun _ => 0) (fun _ => ⟨0, 0⟩) (burst 21)).reflected.length = 11 ∧
      expected options = 10 ∧ ¬SamplesAgree options ∧
      sendUdpStream ⟨true, fun _ => true, fun _ => ⟨0, 0⟩, fun _ => true, fun _ _ => 0⟩ afInet
        ⟨8826, 100, 5, 20000, 10, 10, 0⟩ [] = .error .assertion := by
  intro options
  have harrivals : InOrder options.packetCount.toNat (burst 21) := burst_inOrder (by decide)
  have hreflected : (receiveUdpStream options (fun _ => 0) (fun _ => ⟨0, 0⟩) (burst 21)).reflected.length = 11 := by
    rw [receiveUdpStream_reflected harrivals]
    decide
  refine ⟨harrivals, hreflected, by decide, fun h => ?_, rfl⟩
  have hagree := h.reflected (fun _ => 0) (fun _ => ⟨0, 0⟩) _ harrivals
  rw [hreflected] at hagree
  revert hagree
  decide

end Amplet.UdpstreamStream
