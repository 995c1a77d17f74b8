import Amplet.IcmpPackets
import Amplet.TcppingResponses

/-!
# The TCP ping test

Embedding of the handlers of responses, `receive_packet` and `send_packet` in
`src/tests/tcpping/tcpping.c`. A captured packet is the memory from the transport header
on, with the number of bytes that remain. Handlers match on numbers of the packet only.
-/

namespace Amplet.TcppingTest
open Bytes Failing InFlight ProbeTest ScheduleTime SocketAddress TcppingResponses
open IcmpPackets (packetOf)
open TracerouteProbe (Packet word headerLen)

def long (p : Packet) (i : ℕ) : UInt32 := UInt32.ofNat (word p i * 65536 + word p (i + 2))

def tcphdrAt (p : Packet) (i : ℕ) : Tcphdr where
  seq := long p (i + 4)
  ackSeq := long p (i + 8)
  urg := (p (i + 13)).toNat.testBit 5
  ack := (p (i + 13)).toNat.testBit 4
  psh := (p (i + 13)).toNat.testBit 3
  rst := (p (i + 13)).toNat.testBit 2
  syn := (p (i + 13)).toNat.testBit 1
  fin := (p (i + 13)).toNat.testBit 0

def replyflags (tcp : Tcphdr) : ℕ :=
  (if tcp.urg then 0x20 else 0) + (if tcp.ack then 0x10 else 0) + (if tcp.psh then 0x08 else 0) +
    (if tcp.rst then 0x04 else 0) + (if tcp.syn then 0x02 else 0) + (if tcp.fin then 0x01 else 0)

structure Transport where
  header : Packet
  protocol : UInt8
  remaining : ℤ
  ts : TimeVal

structure Sending where
  source : Bool
  listen : ℤ
  delivery : Delivery

section Callbacks

variable {count : ℕ}

def processTcpResponse (p : Packet) (remaining : ℤ) (ts : TimeVal) (tp : TcppingGlobals count) :
    TcppingGlobals count :=
  if remaining < 20 then tp
  else
    let tcp := tcphdrAt p 0
    match matchResponse tp tcp true with
    | none => tp
    | some i =>
      { tp.setInfo i
          { tp.info i with
            reply := .tcpReply
            replyflags := replyflags tcp
            delay := recordedDelay ts (tp.info i).timeSent } with
        outstanding := tp.outstanding - 1 }

def takeIcmp (p : Packet) (tcp : ℕ) (ts : TimeVal) (tp : TcppingGlobals count) : TcppingGlobals count :=
  match matchResponse tp (tcphdrAt p tcp) false with
  | none => tp
  | some i =>
    { tp.setInfo i
        { tp.info i with
          icmptype := p 0
          icmpcode := p 1
          reply := .icmpReply
          delay := recordedDelay ts (tp.info i).timeSent } with
      outstanding := tp.outstanding - 1 }

def processIcmp4Response (p : Packet) (remaining : ℤ) (ts : TimeVal) (tp : TcppingGlobals count) :
    TcppingGlobals count :=
  if remaining < 8 ∨ remaining - 8 < 20 ∨ remaining - 8 < headerLen p 8 ∨ remaining - 8 - headerLen p 8 < 20 then tp
  else takeIcmp p (8 + headerLen p 8) ts tp

def processIcmp6Response (p : Packet) (remaining : ℤ) (ts : TimeVal) (tp : TcppingGlobals count) :
    TcppingGlobals count :=
  if remaining < 8 ∨ remaining - 8 < 40 ∨ remaining - 8 - 40 < 20 then tp
  else takeIcmp p (8 + 40) ts tp

def dispatch (t : Transport) (tp : TcppingGlobals count) : TcppingGlobals count :=
  if t.protocol = 6 then processTcpResponse t.header t.remaining t.ts tp
  else if t.protocol = 1 then processIcmp4Response t.header t.remaining t.ts tp
  else if t.protocol = 58 then processIcmp6Response t.header t.remaining t.ts tp
  else tp

/-- Without a transport header the check at the end is not made either. -/
def receivePacket (transport : Option Transport) (tp : TcppingGlobals count) : TcppingGlobals count :=
  match transport with
  | none => tp
  | some t => if t.remaining ≤ 0 then tp else (dispatch t tp).checkDone

/-- The raw socket for a destination. A negative descriptor is not looked for. -/
def rawSocket (s : Sockets) : Option SockAddr → Option ℤ
  | some (.inet _) => some s.socket
  | some (.inet6 _) => some s.socket6
  | _ => none

def resetInfo (info : Info) (addr : ℕ) (seqno : UInt32) : Info :=
  { info with
    addr := addr, seqno := seqno, delay := 0, reply := .noReply, replyflags := 0, icmptype := 0
    icmpcode := 0 }

def sendPacket (r : Sending) (tp : TcppingGlobals count) : Except Fault (TcppingGlobals count × Option (Fin count)) :=
  if h : tp.index < count then
    let i : Fin count := ⟨tp.index, h⟩
    let info := resetInfo (tp.info i) tp.index (synSeq tp tp.index)
    match rawSocket tp.sockets (tp.dests i) with
    | none => .ok ((tp.setInfo i info).next, none)
    | some sock =>
      if r.source = false ∨ r.listen = -1 then .ok ((tp.setInfo i info).next, none)
      else if sock ≤ 0 then .error .assertion
      else if r.delivery.whole then
        .ok (Globals.next { tp.setInfo i { info with timeSent := r.delivery.time } with
          outstanding := tp.outstanding + 1 }, some i)
      else .ok ((tp.setInfo i { info with timeSent := ⟨0, 0⟩ }).next, none)
  else .error .assertion

def callback (p : Progress Options Info count) : Event Sending Transport → Except Fault (Progress Options Info count)
  | .send r => do
    let (tp, sent) ← sendPacket r p.globals
    .ok ⟨tp, sent.elim p.sent (insert · p.sent)⟩
  | .receive transport => .ok { p with globals := receivePacket transport p.globals }

def Step (p : Progress Options Info count) (event : Event Sending Transport) (p' : Progress Options Info count) : Prop :=
  p.globals.stopped = false ∧ (∀ r, event = .send r → p.globals.nextpackettimer = true) ∧ callback p event = .ok p'

end Callbacks

section Matching

variable {count : ℕ} {tp tp' : TcppingGlobals count} {t : Transport}

def responseHeader (t : Transport) : Option (Tcphdr × Bool) :=
  if t.protocol = 6 then
    if t.remaining < 20 then none else some (tcphdrAt t.header 0, true)
  else if t.protocol = 1 then
    if t.remaining < 8 ∨ t.remaining - 8 < 20 ∨ t.remaining - 8 < headerLen t.header 8 ∨
        t.remaining - 8 - headerLen t.header 8 < 20 then none
    else some (tcphdrAt t.header (8 + headerLen t.header 8), false)
  else if t.protocol = 58 then
    if t.remaining < 8 ∨ t.remaining - 8 < 40 ∨ t.remaining - 8 - 40 < 20 then none
    else some (tcphdrAt t.header (8 + 40), false)
  else none

def matched (t : Transport) (tp : TcppingGlobals count) : Option (Fin count) :=
  if t.remaining ≤ 0 then none
  else (responseHeader t).bind fun tcp => matchResponse tp tcp.1 tcp.2

def replied (info : Info) : Bool := info.reply ≠ .noReply

def Handles (tp tp' : TcppingGlobals count) : Option (Fin count) → Prop
  | none => tp' = tp
  | some i => ∃ x, replied x = true ∧ tp' = { tp.setInfo i x with outstanding := tp.outstanding - 1 }

theorem processTcpResponse_handles (p : Packet) {remaining : ℤ} (ts : TimeVal) (tp : TcppingGlobals count) (h : ¬remaining < 20) :
    Handles tp (processTcpResponse p remaining ts tp) (matchResponse tp (tcphdrAt p 0) true) := by
  rw [processTcpResponse, if_neg h]
  dsimp only
  cases matchResponse tp (tcphdrAt p 0) true with
  | none => rfl
  | some i => exact ⟨_, rfl, rfl⟩

theorem takeIcmp_handles (p : Packet) (tcp : ℕ) (ts : TimeVal) (tp : TcppingGlobals count) :
    Handles tp (takeIcmp p tcp ts tp) (matchResponse tp (tcphdrAt p tcp) false) := by
  unfold takeIcmp
  cases matchResponse tp (tcphdrAt p tcp) false with
  | none => rfl
  | some i => exact ⟨_, rfl, rfl⟩

theorem dispatch_handles (t : Transport) (tp : TcppingGlobals count) :
    Handles tp (dispatch t tp) ((responseHeader t).bind fun tcp => matchResponse tp tcp.1 tcp.2) := by
  rw [dispatch, responseHeader]
  split_ifs with htcp hshort hicmp hshort hicmp6 hshort
  · rw [processTcpResponse, if_pos hshort]
    rfl
  · exact processTcpResponse_handles _ _ _ hshort
  · rw [processIcmp4Response, if_pos hshort]
    rfl
  · rw [processIcmp4Response, if_neg hshort]
    exact takeIcmp_handles ..
  · rw [processIcmp6Response, if_pos hshort]
    rfl
  · rw [processIcmp6Response, if_neg hshort]
    exact takeIcmp_handles ..
  · rfl

theorem reply_of_matched {i : Fin count} (h : matched t tp = some i) : (tp.info i).reply = .noReply := by
  rw [matched] at h
  split_ifs at h
  obtain ⟨tcp, -, hmatch⟩ := Option.bind_eq_some_iff.mp h
  exact (matchResponse_eq_some_iff.mp hmatch).2

theorem sendPacket_sends {r : Sending} {sent : Option (Fin count)}
    (h : sendPacket r tp = .ok (tp', sent)) : Sends replied tp tp' sent := by
  rw [sendPacket] at h
  by_cases hindex : tp.index < count
  · rw [dif_pos hindex] at h
    dsimp only at h
    split at h
    · cases h
      exact ⟨⟨tp.index, hindex⟩, _, rfl, .inr ⟨rfl, rfl⟩⟩
    · split_ifs at h
      · cases h
        exact ⟨⟨tp.index, hindex⟩, _, rfl, .inr ⟨rfl, rfl⟩⟩
      · cases h
        refine ⟨⟨tp.index, hindex⟩, _, rfl, .inl ⟨rfl, ?_, rfl⟩⟩
        rfl
      · cases h
        exact ⟨⟨tp.index, hindex⟩, _, rfl, .inr ⟨rfl, rfl⟩⟩
  · rw [dif_neg hindex] at h
    cases h

end Matching

section Counting

variable {count : ℕ} {p p' : Progress Options Info count} {event : Event Sending Transport}

def Probed (p : Progress Options Info count) : Event Sending Transport → Prop
  | .receive (some t) => ∀ i, matched t p.globals = some i → i ∈ p.sent
  | _ => True

structure Counted (p : Progress Options Info count) : Prop where
  outstanding : p.globals.outstanding = ({i ∈ p.sent | (p.globals.info i).reply = .noReply} : Finset (Fin count)).card
  nonneg : 0 ≤ p.globals.outstanding
  stopped : p.globals.stopped = true → p.globals.index = count ∧ ∀ i ∈ p.sent, (p.globals.info i).reply ≠ .noReply

theorem waiting_eq (p : Progress Options Info count) :
    (p.requests replied).waiting = {i ∈ p.sent | (p.globals.info i).reply = .noReply} := by
  ext i
  rw [mem_waiting, Finset.mem_filter]
  simp [replied]

theorem counted_iff (hp : Orderly p) : Counted p ↔ (p.requests replied).Accurate := by
  have hwaiting : (p.requests replied).Accurate ↔ p.globals.outstanding =
      ({i ∈ p.sent | (p.globals.info i).reply = .noReply} : Finset (Fin count)).card := by
    rw [Requests.Accurate, waiting_eq]
    rfl
  refine ⟨fun h => hwaiting.mpr h.outstanding, fun h => ⟨hwaiting.mp h, ?_, fun hstopped => ?_⟩⟩
  · have hcard := hwaiting.mp h
    omega
  · obtain ⟨hindex, hzero⟩ := hp.done hstopped
    refine ⟨hindex, fun i hi => ?_⟩
    have hreplied := (outstanding_eq_zero_iff h).mp hzero i hi
    simpa [replied] using hreplied

theorem receive_cases (t : Transport) (p : Progress Options Info count) :
    (receivePacket (some t) p.globals = p.globals ∧ Probed p (.receive (some t))) ∨
      ∃ c tp, receivePacket (some t) p.globals = tp.checkDone ∧ Takes replied c p.globals tp ∧
        (Probed p (.receive (some t)) ↔ c.Fits (p.requests replied)) := by
  by_cases hremaining : t.remaining ≤ 0
  · left
    refine ⟨if_pos hremaining, fun i hi => ?_⟩
    rw [matched, if_pos hremaining] at hi
    cases hi
  · right
    have hhandles := dispatch_handles t p.globals
    have hmatched : matched t p.globals = (responseHeader t).bind
      fun tcp => matchResponse p.globals tcp.1 tcp.2 := if_neg hremaining
    rw [← hmatched] at hhandles
    cases hmatch : matched t p.globals with
    | none =>
      rw [hmatch] at hhandles
      refine ⟨.idle, dispatch t p.globals, if_neg hremaining, ?_, ?_⟩
      · rw [show dispatch t p.globals = p.globals from hhandles]
        exact takes_idle _ _
      · exact iff_of_true (fun i hi => by rw [hmatch] at hi; cases hi) trivial
    | some i =>
      rw [hmatch] at hhandles
      obtain ⟨x, hx, htp⟩ := hhandles
      refine ⟨.answered i, dispatch t p.globals, if_neg hremaining, ?_, ?_⟩
      · rw [htp]
        exact takes_answered hx
      · have hreply := reply_of_matched hmatch
        rw [Change.Fits, mem_waiting]
        simp [Probed, hmatch, replied, hreply]

theorem step_cases (h : Step p event p') : (p' = p ∧ Probed p event) ∨
      ∃ c, Moves replied p c p' ∧ (Probed p event ↔ c.Fits (p.requests replied)) := by
  obtain ⟨-, -, h⟩ := h
  match event, h with
  | .send r, h =>
    obtain ⟨⟨tp, sent⟩, hok, h⟩ := bind_eq_ok.mp h
    cases h
    exact .inr ⟨_, .sends (sendPacket_sends hok), iff_of_true trivial trivial⟩
  | .receive none, h =>
    cases h
    exact .inl ⟨rfl, trivial⟩
  | .receive (some t), h =>
    cases h
    rcases receive_cases t p with ⟨hsame, hprobed⟩ | ⟨c, tp, hreceive, htakes, hfits⟩
    · rw [hsame]
      exact .inl ⟨rfl, hprobed⟩
    · rw [hreceive]
      exact .inr ⟨c, .takes htakes, hfits⟩

theorem syns_counted_iff (hstart : Started p) (events : List (Event Sending Transport)) :
    Always Step Counted p events ↔ Each Step Probed p events := by
  refine always_iff_each Orderly ?_ ?_ hstart.orderly ((counted_iff hstart.orderly).mpr hstart.accurate) events
  · intro p event p' hp hstep hcounted
    rcases step_cases hstep with ⟨rfl, hprobed⟩ | ⟨c, hmoves, hfits⟩
    · exact iff_of_true hcounted hprobed
    · rw [counted_iff (hmoves.orderly hp hstep.1), hfits]
      exact hmoves.accurate_iff hp ((counted_iff hp).mp hcounted)
  · intro p event p' hp hstep _ _
    rcases step_cases hstep with ⟨rfl, -⟩ | ⟨c, hmoves, -⟩
    · exact hp
    · exact hmoves.orderly hp hstep.1

end Counting

def exampleStart (count : ℕ) : Progress Options Info count := ⟨exampleGlobals count 64, ∅⟩

theorem exampleStart_started (count : ℕ) : Started (exampleStart count) := ⟨rfl, rfl, rfl, rfl, rfl, rfl⟩

def exampleSend : Event Sending Transport := .send ⟨true, 1, true, ⟨10, 0⟩⟩

def exampleReply (ack : CStr) : Event Sending Transport :=
  .receive (some ⟨packetOf ([0, 80, 0x82, 0x35, 0, 0, 0, 1] ++ ack ++ [0x50, 0x12, 0x1a, 0x0a, 0, 0, 0, 0]), 6, 20, ⟨11, 0⟩⟩)

def firstAck : CStr := [0x7f, 0xff, 0xff, 0xd1]

def secondAck : CStr := [0x80, 0, 0, 0x35]

theorem syns_run_counted : Started (exampleStart 2) ∧
    Always Step Counted (exampleStart 2) [exampleSend, exampleSend, exampleReply secondAck, exampleReply firstAck] := by
  refine ⟨exampleStart_started 2, (syns_counted_iff (exampleStart_started 2) _).mpr ?_⟩
  rintro p₁ ⟨-, -, h₁⟩
  cases h₁
  refine ⟨trivial, ?_⟩
  rintro p₂ ⟨-, -, h₂⟩
  cases h₂
  refine ⟨trivial, ?_⟩
  rintro p₃ ⟨-, -, h₃⟩
  cases h₃
  refine ⟨fun i _ => ?_, ?_⟩
  · revert i
    decide
  rintro p₄ ⟨-, -, h₄⟩
  cases h₄
  refine ⟨fun i _ => ?_, trivial⟩
  · revert i
    decide

theorem syn_unsent_miscounted : Started (exampleStart 2) ∧
    ¬Always Step Counted (exampleStart 2) [exampleSend, exampleReply secondAck] := by
  refine ⟨exampleStart_started 2, fun h => ?_⟩
  have hsent := h.2 _ ⟨rfl, fun _ _ => rfl, rfl⟩
  have hreceived := hsent.2 _ ⟨rfl, fun _ _ => rfl, rfl⟩
  exact absurd hreceived.outstanding (by decide)

end Amplet.TcppingTest
