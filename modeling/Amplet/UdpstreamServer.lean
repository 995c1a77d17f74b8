import Amplet.UdpstreamStream

/-!
# Server of the udpstream test

Embedding of `serve_test`, `do_send` and `do_receive` in
`src/tests/udpstream/udpstream_server.c`, of `parse_hello` in `udpstream_common.c`, and of
the functions of `src/common/controlmsg.c` that take control messages apart. A control
message, and the options in it, are what the protocol buffer library makes of some bytes,
or nothing.
-/

namespace Amplet.UdpstreamServer
open List ProbeTest SocketAddress UdpstreamStream
open UdpstreamReport (Item SummaryStats reportStream reportSummary)

def ampTestUdpstream : ℕ := 9

def defaultTestPort : UInt16 := 8826

def maxTestPort : UInt16 := 8836

def ipportReserved : UInt16 := 1024

structure Hello where
  testPort : Option UInt32
  packetSize : Option UInt32
  packetSpacing : Option UInt32
  packetCount : Option UInt32
  percentileCount : Option UInt32
  dscp : Option UInt32
  rttSamples : Option UInt32

def parseHello (hello : Hello) : Options where
  tport := (hello.testPort.getD 0).toUInt16
  packetSize := (hello.packetSize.getD 100).toUInt16
  packetCount := (hello.packetCount.getD 21).toUInt16
  packetSpacing := hello.packetSpacing.getD 20000
  percentileCount := hello.percentileCount.getD 10
  rttSamples := hello.rttSamples.getD 1
  dscp := (hello.dscp.getD 0).toUInt8

structure Send where
  testPort : Option UInt32

def parseSend (send : Send) : UInt16 := (send.testPort.getD 0).toUInt16

inductive ControlType
  | hello
  | ready
  | receive
  | send
  | result
  | renew
deriving DecidableEq, Repr

/-- A message has parts, a part may have options, and these may be unpacked. -/
structure Control where
  test : Option ℕ
  type : Option ControlType
  hello : Option (Option (Option Hello))
  receive : Option (Option Unit)
  send : Option (Option (Option Send))

inductive Ending
  | finished
  | rejected
  | fault (fault : Fault)
deriving DecidableEq, Repr

def parseControl {α : Type} (type : ControlType) (body : Control → Option (Option α)) (parses : Bool) (test : ℕ)
    (msg : Option Control) : Except Ending (Option α) :=
  match msg with
  | none => .error .rejected
  | some msg =>
    if msg.type ≠ some type then .error .rejected
    else if msg.test ≠ some test then .error .rejected
    else
      match body msg with
      | none => .error .rejected
      | some options => if parses && options.isNone then .error .rejected else .ok options

/-- Options are used without a check that they were unpacked. -/
def parseOptions {α β : Type} (parse : α → β) : Option (Option α) → Except Ending β
  | some (some options) => .ok (parse options)
  | _ => .error (.fault .memory)

def parseControlHello (test : ℕ) (msg : Option Control) : Except Ending Options :=
  parseControl .hello Control.hello true test msg >>= parseOptions parseHello

def parseControlReceive (test : ℕ) (msg : Option Control) : Except Ending Unit :=
  parseControl .receive Control.receive false test msg >>= fun _ => .ok ()

def parseControlSend (test : ℕ) (msg : Option Control) : Except Ending UInt16 :=
  parseControl .send Control.send true test msg >>= parseOptions parseSend

inductive Listening
  | listening
  | inUse
  | failed
deriving DecidableEq, Repr

/-- What the system calls give while the message with some number is handled. -/
structure ServerEnv where
  family : ℕ
  listen : UInt16 → Listening
  sending : ℕ → SendEnv
  reflections : ℕ → List Arrival
  stack : ℕ → Buffer
  arrivals : ℕ → List Arrival

structure Call where
  family : ℕ
  port : UInt16
  options : Options

inductive Reply
  | ready (port : UInt16)
  | received (item : Item)
  | sent (rtt : Option SummaryStats)

structure Session where
  handled : ℕ
  calls : List Call
  replies : List Reply

def doReceive (env : ServerEnv) (options : Options) (s : Session) : Session :=
  let r := receiveUdpStream options (env.stack s.handled) (fun _ => ⟨0, 0⟩) (env.arrivals s.handled)
  { s with
    handled := s.handled + 1
    replies := s.replies ++ [.ready options.tport, .received (reportStream .clientToServer none (some r.times) options)] }

def doSend (env : ServerEnv) (port : UInt16) (options : Options) (s : Session) : Session × Option Ending :=
  let s := { s with calls := s.calls ++ [⟨env.family, port, options⟩] }
  match sendUdpStream (env.sending s.handled) env.family options (env.reflections s.handled) with
  | .error fault => (s, some (.fault fault))
  | .ok (_, rtt) =>
    ({ s with handled := s.handled + 1, replies := s.replies ++ [.sent (rtt.bind reportSummary)] }, none)

/-- A message that cannot be unpacked is read through a null pointer. -/
def handle (env : ServerEnv) (options : Options) (s : Session) : Option Control → Session × Option Ending
  | none => (s, some (.fault .memory))
  | some msg =>
    match msg.type.getD .hello with
    | .send =>
      match parseControlSend ampTestUdpstream (some msg) with
      | .error ending => (s, some ending)
      | .ok port => doSend env port options s
    | .receive =>
      -- the options of a RECEIVE message are not looked at
      match parseControlReceive ampTestUdpstream (some msg) with
      | .error ending => (s, some ending)
      | .ok () => (doReceive env options s, none)
    | _ => ({ s with handled := s.handled + 1 }, none)

def serveMessages (env : ServerEnv) (options : Options) : Session → List (Option Control) → Session × Ending
  | s, [] => (s, .finished)
  | s, msg :: rest =>
    match handle env options s msg with
    | (s, some ending) => (s, ending)
    | (s, none) => serveMessages env options s rest

def listenFrom (env : ServerEnv) : ℕ → UInt16 → Except Ending UInt16
  | more, port =>
    match env.listen port, more with
    | .listening, _ => .ok port
    | .inUse, more + 1 => listenFrom env more (port + 1)
    | _, _ => .error .rejected

def openTest (env : ServerEnv) (hello : Option Control) : Except Ending Options :=
  match parseControlHello ampTestUdpstream hello with
  | .error ending => .error ending
  | .ok options =>
    if options.tport = defaultTestPort then
      (listenFrom env (maxTestPort.toNat - defaultTestPort.toNat) options.tport).map fun port => { options with tport := port }
    else if options.tport < ipportReserved then .error .rejected
    else (listenFrom env 0 options.tport).map fun port => { options with tport := port }

def serveTest (env : ServerEnv) (hello : Option Control) (messages : List (Option Control)) : Session × Ending :=
  match openTest env hello with
  | .error ending => (⟨0, [], []⟩, ending)
  | .ok options => serveMessages env options ⟨0, [], []⟩ messages

section Calls

variable {env : ServerEnv} {options : Options} {s : Session} {call : Call}

/-- Streams are sent with the options of the HELLO message only. -/
def Agreed (env : ServerEnv) (options : Options) (calls : List Call) : Prop :=
  ∀ call ∈ calls, call.family = env.family ∧ call.options = options

theorem doSend_calls (env : ServerEnv) (port : UInt16) (options : Options) (s : Session) :
    (doSend env port options s).1.calls = s.calls ++ [⟨env.family, port, options⟩] := by
  rw [doSend]
  dsimp only
  split <;> rfl

theorem doSend_agreed (h : Agreed env options s.calls) (port : UInt16) :
    Agreed env options (doSend env port options s).1.calls := by
  rw [doSend_calls]
  intro call hcall
  rcases mem_append.mp hcall with hcall | hcall
  · exact h call hcall
  · rw [mem_singleton.mp hcall]
    exact ⟨rfl, rfl⟩

theorem handle_agreed (h : Agreed env options s.calls) (msg : Option Control) :
    Agreed env options (handle env options s msg).1.calls := by
  cases msg with
  | none => exact h
  | some msg =>
    rw [handle]
    split
    · split
      · exact h
      · exact doSend_agreed h _
    · split
      · exact h
      · exact h
    · exact h

theorem serveMessages_agreed (h : Agreed env options s.calls) (messages : List (Option Control)) :
    Agreed env options (serveMessages env options s messages).1.calls := by
  induction messages generalizing s with
  | nil => exact h
  | cons msg rest ih =>
    have hmsg := handle_agreed h msg
    rw [serveMessages]
    split
    · rename_i heq
      rwa [heq] at hmsg
    · rename_i heq
      rw [heq] at hmsg
      exact ih hmsg

theorem openTest_packetSize {hello : Option Control} {offered : Options}
    (hhello : parseControlHello ampTestUdpstream hello = .ok offered) (h : openTest env hello = .ok options) :
    options.packetSize = offered.packetSize := by
  have hport : ∀ {result : Except Ending UInt16}, result.map (fun port => { offered with tport := port }) = .ok options →
      options.packetSize = offered.packetSize := by
    intro result hresult
    cases result with
    | error ending => cases hresult
    | ok port =>
      cases hresult
      rfl
  rw [openTest, hhello] at h
  dsimp only at h
  split_ifs at h
  · exact hport h
  · exact hport h

end Calls

section Sizes

variable {env : ServerEnv} {hello : Option Control} {offered options : Options} {family : ℕ} {size : UInt16}

def Sane (family : ℕ) (packetSize : UInt16) : Prop :=
  ∃ len, payloadLen family packetSize = some len ∧ sizeofPayload ≤ len ∧ len ≤ maximumUdpstreamPacketLength

def SaneSizes (env : ServerEnv) (hello : Option Control) : Prop :=
  ∀ messages, ∀ call ∈ (serveTest env hello messages).1.calls, Sane call.family call.options.packetSize

def overhead (family : ℕ) : ℕ := if family = afInet then 28 else 48

theorem sane_iff (hfamily : family = afInet ∨ family = afInet6) :
    Sane family size ↔ overhead family + 20 ≤ size.toNat ∧ size.toNat ≤ overhead family + 1500 := by
  have hsize := size.toNat_lt
  rcases hfamily with rfl | rfl
  · simp only [Sane, payloadLen, overhead, if_pos, Option.some.injEq, exists_eq_left', sizeofPayload,
      maximumUdpstreamPacketLength, IcmpPackets.sizeofIphdr, sizeofUdphdr]
    omega
  · have hne : afInet6 ≠ afInet := by decide
    simp only [Sane, payloadLen, overhead, if_neg hne, if_pos, Option.some.injEq, exists_eq_left', sizeofPayload,
      maximumUdpstreamPacketLength, IcmpPackets.sizeofIp6Hdr, sizeofUdphdr]
    omega

def sendMessage (port : UInt32) : Control := ⟨some ampTestUdpstream, some .send, none, none, some (some (some ⟨port⟩))⟩

theorem serveMessages_send (env : ServerEnv) (options : Options) :
    (serveMessages env options ⟨0, [], []⟩ [some (sendMessage 0)]).1.calls = [⟨env.family, 0, options⟩] := by
  have hcalls := doSend_calls env 0 options ⟨0, [], []⟩
  have hhandle : handle env options ⟨0, [], []⟩ (some (sendMessage 0)) = doSend env 0 options ⟨0, [], []⟩ := rfl
  rw [serveMessages, hhandle]
  split
  · rename_i heq
    rwa [heq] at hcalls
  · rename_i heq
    rwa [heq] at hcalls

theorem sizes_sane_iff (hfamily : env.family = afInet ∨ env.family = afInet6)
    (hhello : parseControlHello ampTestUdpstream hello = .ok offered) (hopen : openTest env hello = .ok options) :
    SaneSizes env hello ↔ overhead env.family + 20 ≤ offered.packetSize.toNat ∧
        offered.packetSize.toNat ≤ overhead env.family + 1500 := by
  rw [← sane_iff hfamily, ← openTest_packetSize hhello hopen]
  simp only [SaneSizes, serveTest, hopen]
  constructor
  · intro h
    exact h [some (sendMessage 0)] ⟨env.family, 0, options⟩ (by rw [serveMessages_send]; simp)
  · intro h messages call hcall
    have hagreed : Agreed env options (⟨0, [], []⟩ : Session).calls := fun _ hnil => absurd hnil not_mem_nil
    obtain ⟨hcallFamily, hcallOptions⟩ := serveMessages_agreed hagreed messages call hcall
    rwa [hcallFamily, hcallOptions]

end Sizes

def helloMessage (packetSize : UInt32) : Control :=
  ⟨some ampTestUdpstream, some .hello, some (some (some ⟨some 8826, some packetSize, none, none, none, none, none⟩)), none, none⟩

def exampleServer (family : ℕ) : ServerEnv where
  family := family
  listen := fun _ => .listening
  sending := fun _ => ⟨true, fun len => len < 2 ^ 63, fun _ => ⟨0, 0⟩, fun _ => true, fun _ _ => 0⟩
  reflections := fun _ => []
  stack := fun _ _ => 0
  arrivals := fun _ => []

theorem sizes_sane_hundred : SaneSizes (exampleServer afInet6) (helloMessage 100) :=
  (sizes_sane_iff (.inr rfl) rfl rfl).mpr (by decide)

theorem size_zero_wraps : ¬SaneSizes (exampleServer afInet) (helloMessage 0) ∧
    (serveTest (exampleServer afInet) (helloMessage 0) [some (sendMessage 0)]).1.calls.map
        (fun call => payloadLen call.family call.options.packetSize) = [some (2 ^ 64 - 28)] ∧
      (serveTest (exampleServer afInet) (helloMessage 0) [some (sendMessage 0)]).2 = .fault .memory := by
  refine ⟨fun h => ?_, by decide, by decide⟩
  have hsane : Sane afInet 0 := h [some (sendMessage 0)] _ (mem_singleton.mpr rfl)
  rw [sane_iff (.inl rfl)] at hsane
  revert hsane
  decide

end Amplet.UdpstreamServer
