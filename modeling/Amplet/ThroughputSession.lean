import Amplet.ProcessNetwork
import Amplet.ThroughputSchedule

/-!
# The throughput client and server

Embedding of `runSchedule` in `src/tests/throughput/throughput_client.c` and of
`serveTest` with `do_receive`, `do_send` and `do_renew` in
`src/tests/throughput/throughput_server.c` as two processes. Control messages, listening
sockets, connections in a backlog and the ends of data streams are elements of queues:
`connect` succeeds once the peer listens on that port, `incomingTest` returns when the
sender has closed its socket. What the two ends measure is the environment's choice. A
request that `sendStream` does not return from keeps its process busy for ever.
-/

namespace Amplet.ThroughputSession
open List Function Bytes ThroughputSchedule ProcessNetwork

/-- `Amplet2__Throughput__Item` -/
structure Report where
  direction : Direction
  duration : UInt64
  bytes : UInt64
  tcpinfo : Option TcpInfo
deriving DecidableEq, Repr

def reportSchedule (direction : Direction) (result : TestResult) : Report :=
  ⟨direction, result.endNs - result.startNs, result.bytes, result.tcpinfo⟩

inductive Msg
  | hello (options : Options)
  | ready (port : UInt16)
  | receive
  | send (bytes : UInt64) (duration : UInt32) (writeSize : UInt32)
  | result (report : Report)
  | renew
  | closed
  | listening (port : UInt16)
  | connection (id : ℕ)
  | eof
deriving DecidableEq, Repr

inductive Chan
  | toServer
  | toClient
  | listening
  | backlog
  | clientData (id : ℕ)
  | serverData (id : ℕ)
deriving DecidableEq, Repr

inductive Side
  | client
  | server
deriving DecidableEq, Repr

def writer : Chan → Side
  | .toServer | .backlog | .clientData _ => .client
  | .toClient | .listening | .serverData _ => .server

def reader : Chan → Side
  | .toServer | .backlog | .clientData _ => .server
  | .toClient | .listening | .serverData _ => .client

structure Env where
  port : ℕ → UInt16
  clientSent : ℕ → TestResult
  clientReceived : ℕ → TestResult
  serverSent : ℕ → TestResult
  serverReceived : ℕ → TestResult

inductive ClientPc
  | sendHello (options : Options)
  | readReady
  | connect
  | announce
  | loop
  | incoming
  | readTcpinfo (id : ℕ) (result : TestResult)
  | readStart (item : TestRequest)
  | stream (item : TestRequest)
  | readRemote (id : ℕ) (result : TestResult)
  | finished
  | failed
deriving DecidableEq, Repr

structure Client where
  pc : ClientPc
  rest : List TestRequest
  tport : UInt16
  testSocket : Option ℕ
  conns : ℕ
  ran : List (Option (ℕ × TestResult))
  sent : List Msg
  got : List Msg
deriving DecidableEq, Repr

def Client.fail (a : Client) : Client := { a with pc := .failed }

def Client.store (a : Client) (result : Option (ℕ × TestResult)) : Client :=
  { a with pc := .loop, rest := a.rest.tail, ran := a.ran ++ [result] }

def Client.readReady (a : Client) (pc : ClientPc) : Msg → Client
  | .ready port => { a with pc, tport := port, got := a.got ++ [.ready port] }
  | _ => a.fail

def Client.readResult (a : Client) (id : ℕ) (result : Report → TestResult) : Msg → Client
  | .result report =>
    Client.store { a with got := a.got ++ [.result report] } (some (id, result report))
  | _ => a.fail

def Client.connect (a : Client) (m : Msg) : Client :=
  if m = .listening a.tport then { a with pc := .announce } else a.fail

def Client.control (a : Client) (m : Msg) (pc : ClientPc) : Action Chan Msg Client :=
  .send .toServer m { a with pc, sent := a.sent ++ [m] }

def Client.schedule (a : Client) : Action Chan Msg Client :=
  match a.rest with
  | [] => a.control .closed .finished
  | item :: _ =>
    match a.testSocket with
    | none => a.control .renew .readReady
    | some _ =>
      match item.direction with
      | .null => .work (a.store none)
      | .serverToClient => a.control (.send item.bytes item.duration item.writeSize) .incoming
      | .clientToServer => a.control .receive (.readStart item)

def clientAct (env : Env) (a : Client) : Action Chan Msg Client :=
  match a.pc with
  | .sendHello options => a.control (.hello options) .readReady
  | .readReady => .receive .toClient (a.readReady .connect)
  | .connect => .receive .listening a.connect
  | .announce => .send .backlog (.connection a.conns)
      { a with pc := .loop, testSocket := some a.conns, conns := a.conns + 1 }
  | .loop => a.schedule
  | .incoming =>
    match a.testSocket with
    | none => .work a.fail
    | some id => .receive (.serverData id) fun _ =>
        { a with pc := .readTcpinfo id (env.clientReceived id), testSocket := none }
  | .readTcpinfo id result => .receive .toClient
      (a.readResult id fun report => { result with tcpinfo := report.tcpinfo })
  | .readStart item => .receive .toClient (a.readReady (.stream item))
  | .stream item =>
    match a.testSocket with
    | none => .work a.fail
    | some id =>
      if Endless item then .work a
      -- a refused request is not followed by reading the result
      else if HasEnd item then .send (.clientData id) .eof
        { a with pc := .readRemote id (env.clientSent id), testSocket := none }
      else .send (.clientData id) .eof (Client.store { a with testSocket := none } (some (id, ⟨0, 0, 0, none⟩)))
  | .readRemote id result => .receive .toClient (a.readResult id fun report =>
      { result with startNs := 0, endNs := report.duration, bytes := report.bytes })
  | .finished => .halt
  | .failed => .halt

inductive ServerPc
  | readHello
  | listen
  | sendReady (port : UInt16)
  | accept
  | loop
  | sendStart
  | incoming
  | sendReceived (report : Report)
  | stream (request : TestRequest)
  | closeStream
  | finished
  | failed
deriving DecidableEq, Repr

/-- `serveTest`; `unhandled` counts the messages that it only warns about. -/
structure Server where
  pc : ServerPc
  options : Option Options
  testSock : Option ℕ
  listens : ℕ
  unhandled : ℕ
  sent : List Msg
  got : List Msg
deriving DecidableEq, Repr

def Server.fail (b : Server) : Server := { b with pc := .failed }

def Server.control (b : Server) (m : Msg) (pc : ServerPc) : Server :=
  { b with pc, sent := b.sent ++ [m] }

/-- `do_send` adds the options of the HELLO. -/
def Server.request (b : Server) (bytes : UInt64) (duration writeSize : UInt32) : TestRequest :=
  match b.options with
  | none => ⟨.null, bytes, duration, writeSize, 0, .none⟩
  | some options => ⟨.null, bytes, duration, writeSize, options.randomise.toUInt32, options.protocol⟩

def Server.readHello (b : Server) : Msg → Server
  | .hello options =>
    { b with pc := .listen, options := some options, got := b.got ++ [.hello options] }
  | _ => b.fail

def Server.accept (b : Server) : Msg → Server
  | .connection id => { b with pc := .loop, testSock := some id }
  | _ => b.fail

def Server.dispatch (b : Server) (m : Msg) : Server :=
  let b := { b with got := b.got ++ [m] }
  match m with
  | .receive => { b with pc := .sendStart }
  | .send bytes duration writeSize => { b with pc := .stream (b.request bytes duration writeSize) }
  | .renew => { b with pc := .listen }
  | .closed => { b with pc := .finished }
  | _ => { b with unhandled := b.unhandled + 1 }

def serverAct (env : Env) (b : Server) : Action Chan Msg Server :=
  match b.pc with
  | .readHello => .receive .toServer b.readHello
  | .listen => .send .listening (.listening (env.port b.listens))
      { b with pc := .sendReady (env.port b.listens), listens := b.listens + 1 }
  | .sendReady port => .send .toClient (.ready port) (b.control (.ready port) .accept)
  | .accept => .receive .backlog b.accept
  | .loop => .receive .toServer b.dispatch
  | .sendStart => .send .toClient (.ready 0) (b.control (.ready 0) .incoming)
  | .incoming =>
    match b.testSock with
    | none => .work b.fail
    | some id => .receive (.clientData id) fun _ =>
        { b with pc := .sendReceived (reportSchedule .clientToServer (env.serverReceived id)) }
  | .sendReceived report => .send .toClient (.result report)
      { b.control (.result report) .loop with testSock := none }
  | .stream request =>
    match b.testSock with
    | none => .work b.fail
    | some id =>
      if Endless request then .work b
      else if HasEnd request then
        let report := reportSchedule .serverToClient (env.serverSent id)
        .send .toClient (.result report) (b.control (.result report) .closeStream)
      else .work b.fail
  | .closeStream =>
    match b.testSock with
    | none => .work b.fail
    | some id => .send (.serverData id) .eof { b with pc := .loop, testSock := none }
  | .finished => .halt
  | .failed => .halt

abbrev Proc : Side → Type
  | .client => Client
  | .server => Server

def act (env : Env) : ∀ i, Proc i → Action Chan Msg (Proc i)
  | .client => clientAct env
  | .server => serverAct env

variable {env : Env} {a : Client} {c : Chan} {m : Msg} {closed : Bool} {options : Options}

theorem clientAct_send {a' : Client} (h : clientAct env a = .send c m a') : writer c = .client := by
  unfold clientAct Client.schedule Client.control at h
  repeat' split at h
  all_goals cases h
  all_goals rfl

theorem clientAct_receive {f : Msg → Client} (h : clientAct env a = .receive c f) : reader c = .client := by
  unfold clientAct Client.schedule Client.control at h
  repeat' split at h
  all_goals cases h
  all_goals rfl

variable {b : Server}

theorem serverAct_send {b' : Server} (h : serverAct env b = .send c m b') : writer c = .server := by
  unfold serverAct at h
  repeat' split at h
  all_goals cases h
  all_goals rfl

theorem serverAct_receive {f : Msg → Server} (h : serverAct env b = .receive c f) : reader c = .server := by
  unfold serverAct at h
  repeat' split at h
  all_goals cases h
  all_goals rfl

def session (env : Env) : Network Side Chan Msg Proc where
  act := act env
  writer := writer
  reader := reader
  writes := fun {i} _ _ _ _ h => by
    cases i with
    | client => exact clientAct_send h
    | server => exact serverAct_send h
  reads := fun {i} _ _ _ h => by
    cases i with
    | client => exact clientAct_receive h
    | server => exact serverAct_receive h

def sys (a : Client) (b : Server) (queue : Chan → List Msg) : State Side Chan Msg Proc :=
  ⟨fun | .client => a | .server => b, queue⟩

def idle : Chan → List Msg := fun _ => []

abbrev Runs (env : Env) (n : ℕ) : State Side Chan Msg Proc → State Side Chan Msg Proc → Prop :=
  Run (Step (session env)) n

variable {item : TestRequest} {rest : List TestRequest}

def runs (item : TestRequest) : Bool := item.direction ≠ .null

def itemRequest (item : TestRequest) : List Msg :=
  match item.direction with
  | .null => []
  | .serverToClient => [.send item.bytes item.duration item.writeSize]
  | .clientToServer => [.receive]

def itemReplies (env : Env) (id : ℕ) (item : TestRequest) : List Msg :=
  match item.direction with
  | .null => []
  | .serverToClient => [.result (reportSchedule .serverToClient (env.serverSent id))]
  | .clientToServer =>
    [.ready 0, .result (reportSchedule .clientToServer (env.serverReceived id))]

def itemResult (env : Env) (id : ℕ) (item : TestRequest) : Option (ℕ × TestResult) :=
  match item.direction with
  | .null => none
  | .serverToClient =>
    some (id, { env.clientReceived id with tcpinfo := (env.serverSent id).tcpinfo })
  | .clientToServer =>
    some (id, { env.clientSent id with
      startNs := 0
      endNs := (env.serverReceived id).endNs - (env.serverReceived id).startNs
      bytes := (env.serverReceived id).bytes })

/-- The next item uses connection `id`, which has to be opened first when `closed`. -/
structure AtLoop (id : ℕ) (closed : Bool) (rest : List TestRequest) (a : Client) (b : Server) :
    Prop where
  clientPc : a.pc = .loop
  serverPc : b.pc = .loop
  items : a.rest = rest
  testSocket : a.testSocket = if closed then none else some id
  testSock : b.testSock = if closed then none else some id
  conns : a.conns = if closed then id else id + 1
  listens : b.listens = if closed then id else id + 1

structure Logged (a : Client) (b : Server) (a' : Client) (b' : Server) (requests replies : List Msg)
    (results : List (Option (ℕ × TestResult))) : Prop where
  clientSent : a'.sent = a.sent ++ requests
  clientGot : a'.got = a.got ++ replies
  serverSent : b'.sent = b.sent ++ replies
  serverGot : b'.got = b.got ++ requests
  ran : a'.ran = a.ran ++ results
  unhandled : b'.unhandled = b.unhandled

section Canonical

variable {env : Env} {a a' : Client} {b b' : Server} {queue queue' : Chan → List Msg}

theorem client_step (h : Effect (clientAct env a) queue a' queue') : Step (session env) (sys a b queue) (sys a' b queue') := by
  have hstep := Step.of (N := session env) (s := sys a b queue) (i := .client) h
  have hproc : update (sys a b queue).proc .client a' = (sys a' b queue').proc := by
    funext i
    cases i <;> rfl
  rw [hproc] at hstep
  exact hstep

theorem server_step (h : Effect (serverAct env b) queue b' queue') : Step (session env) (sys a b queue) (sys a b' queue') := by
  have hstep := Step.of (N := session env) (s := sys a b queue) (i := .server) h
  have hproc : update (sys a b queue).proc .server b' = (sys a b' queue').proc := by
    funext i
    cases i <;> rfl
  rw [hproc] at hstep
  exact hstep

theorem client_sends (h : clientAct env a = .send c m a') :
    Step (session env) (sys a b queue) (sys a' b (update queue c (queue c ++ [m]))) :=
  client_step (h ▸ .send c m a' queue)

theorem server_sends (h : serverAct env b = .send c m b') :
    Step (session env) (sys a b queue) (sys a b' (update queue c (queue c ++ [m]))) :=
  server_step (h ▸ .send c m b' queue)

theorem Logged.trans {a' a'' : Client} {b' b'' : Server} {q q' r r' : List Msg}
    {t t' : List (Option (ℕ × TestResult))} (h : Logged a b a' b' q r t)
    (h' : Logged a' b' a'' b'' q' r' t') : Logged a b a'' b'' (q ++ q') (r ++ r') (t ++ t') where
  clientSent := by rw [h'.clientSent, h.clientSent, append_assoc]
  clientGot := by rw [h'.clientGot, h.clientGot, append_assoc]
  serverSent := by rw [h'.serverSent, h.serverSent, append_assoc]
  serverGot := by rw [h'.serverGot, h.serverGot, append_assoc]
  ran := by rw [h'.ran, h.ran, append_assoc]
  unhandled := h'.unhandled.trans h.unhandled

theorem client_works (h : clientAct env a = .work a') :
    Step (session env) (sys a b queue) (sys a' b queue) := client_step (h ▸ .work a' queue)

theorem server_works (h : serverAct env b = .work b') :
    Step (session env) (sys a b queue) (sys a b' queue) := server_step (h ▸ .work b' queue)

section

variable (hq : queue c = [])
include hq

theorem sent_and_taken : update (update queue c (queue c ++ [m])) c [] = queue := by
  rw [update_idem, ← hq, update_eq_self]

theorem client_takes {f : Msg → Client} (h : clientAct env a = .receive c f) :
    Step (session env) (sys a b (update queue c (queue c ++ [m]))) (sys (f m) b queue) := by
  have hstep := Effect.receive (L := Client) c f (show update queue c (queue c ++ [m]) c = m :: [] by simp [hq])
  rw [sent_and_taken hq] at hstep
  exact client_step (h ▸ hstep)

theorem server_takes {f : Msg → Server} (h : serverAct env b = .receive c f) :
    Step (session env) (sys a b (update queue c (queue c ++ [m]))) (sys a (f m) queue) := by
  have hstep := Effect.receive (L := Server) c f (show update queue c (queue c ++ [m]) c = m :: [] by simp [hq])
  rw [sent_and_taken hq] at hstep
  exact server_step (h ▸ hstep)

theorem client_to_server {f : Msg → Server} (ha : clientAct env a = .send c m a') (hb : serverAct env b = .receive c f) :
    Runs env 2 (sys a b queue) (sys a' (f m) queue) :=
  .head (client_sends ha) (.single (server_takes hq hb))

theorem server_to_client {f : Msg → Client} (hb : serverAct env b = .send c m b') (ha : clientAct env a = .receive c f) :
    Runs env 2 (sys a b queue) (sys (f m) b' queue) :=
  .head (server_sends hb) (.single (client_takes hq ha))

end

theorem client_connects (ha : a.pc = .connect) (hq : queue .listening = []) :
    Step (session env) (sys a b (update queue .listening (queue .listening ++ [.listening a.tport])))
      (sys { a with pc := .announce } b queue) := by
  have hact : clientAct env a = .receive .listening a.connect := by rw [clientAct, ha]
  have hstep := client_takes (b := b) (m := .listening a.tport) hq hact
  rwa [Client.connect, if_pos rfl] at hstep

theorem run_connect (ha : a.pc = .readReady) (hb : b.pc = .listen) (hconns : a.conns = b.listens) :
    ∃ n a' b', Runs env n (sys a b idle) (sys a' b' idle) ∧ AtLoop b.listens false a.rest a' b' ∧
      Logged a b a' b' [] [.ready (env.port b.listens)] [] := by
  obtain ⟨pc, rest, tport, socket, conns, ran, sent, got⟩ := a
  obtain ⟨pc', options, sock, listens, unhandled, sent', got'⟩ := b
  cases ha
  cases hb
  cases hconns
  refine ⟨_, _, _, .head (server_sends rfl) (.trans (server_to_client rfl rfl rfl)
    (.head (client_connects rfl rfl) (client_to_server rfl rfl rfl))), ⟨rfl, rfl, rfl, rfl, rfl, rfl, rfl⟩, ?_⟩
  exact ⟨(append_nil _).symm, rfl, rfl, (append_nil _).symm, (append_nil _).symm, rfl⟩

theorem hasEnd_request (b : Server) (h : HasEnd item) : HasEnd (b.request item.bytes item.duration item.writeSize) := by
  rw [Server.request]
  cases b.options <;> exact h

theorem endless_request (b : Server) (item : TestRequest) :
    Endless (b.request item.bytes item.duration item.writeSize) ↔ Endless item := by
  rw [Server.request]
  cases b.options <;> exact Iff.rfl

/-- HELLO or RENEW. -/
theorem run_asking {id : ℕ} {f : Msg → Server} (ha : clientAct env a = .send .toServer m a')
    (hb : serverAct env b = .receive .toServer f) (hlog : Logged a b a' (f m) [m] [] [])
    (hpc : a'.pc = .readReady) (hpc' : (f m).pc = .listen) (hrest : a'.rest = rest) (hconns : a'.conns = id)
    (hlistens : (f m).listens = id) :
    ∃ n a₁ b₁, Runs env n (sys a b idle) (sys a₁ b₁ idle) ∧ AtLoop id false rest a₁ b₁ ∧
      Logged a b a₁ b₁ [m] [.ready (env.port id)] [] := by
  obtain ⟨n, a₁, b₁, hruns, hloop, hlog'⟩ := run_connect hpc hpc' (hconns.trans hlistens.symm)
  rw [hrest, hlistens] at hloop
  rw [hlistens] at hlog'
  exact ⟨_, a₁, b₁, .trans (client_to_server rfl ha hb) hruns, hloop, hlog.trans hlog'⟩

theorem run_renew {id : ℕ} (h : AtLoop id closed (item :: rest) a b) :
    ∃ n a' b', Runs env n (sys a b idle) (sys a' b' idle) ∧ AtLoop id false (item :: rest) a' b' ∧
      Logged a b a' b' (if closed then [.renew] else []) (if closed then [.ready (env.port id)] else []) [] := by
  cases closed with
  | false => exact ⟨0, a, b, .refl _, h, by simp, by simp, by simp, by simp, by simp, rfl⟩
  | true =>
    obtain ⟨pc, items, tport, socket, conns, ran, sent, got⟩ := a
    obtain ⟨pc', options, sock, listens, unhandled, sent', got'⟩ := b
    obtain ⟨⟨⟩, ⟨⟩, ⟨⟩, ⟨⟩, ⟨⟩, ⟨⟩, ⟨⟩⟩ := h
    exact run_asking rfl rfl ⟨rfl, (append_nil _).symm, (append_nil _).symm, rfl, (append_nil _).symm, rfl⟩ rfl rfl rfl rfl rfl

theorem run_item {id : ℕ} (hrun : Runnable item) (hends : ¬ Endless item) (h : AtLoop id false (item :: rest) a b) :
    ∃ n a' b', Runs env n (sys a b idle) (sys a' b' idle) ∧ AtLoop (id + (runs item).toNat) (runs item) rest a' b' ∧
      Logged a b a' b' (itemRequest item) (itemReplies env id item) [itemResult env id item] := by
  have hend := hrun.hasEnd
  obtain ⟨pc, items, tport, socket, conns, ran, sent, got⟩ := a
  obtain ⟨pc', options, sock, listens, unhandled, sent', got'⟩ := b
  obtain ⟨direction, bytes, duration, writeSize, randomise, protocol⟩ := item
  obtain ⟨⟨⟩, ⟨⟩, ⟨⟩, ⟨⟩, ⟨⟩, ⟨⟩, ⟨⟩⟩ := h
  -- each step leads to the state that the two programs compute
  cases direction with
  | null =>
    exact ⟨_, _, _, .single (client_works rfl), ⟨rfl, rfl, rfl, rfl, rfl, rfl, rfl⟩,
      (append_nil _).symm, (append_nil _).symm, (append_nil _).symm, (append_nil _).symm, rfl, rfl⟩
  | serverToClient =>
    exact ⟨_, _, _, .trans (client_to_server rfl rfl rfl) (.head (server_sends
      ((if_neg (mt (endless_request _ _).mp hends)).trans (if_pos (hasEnd_request _ (hend nofun)))))
        (.trans (server_to_client rfl rfl rfl) (.single (client_takes rfl rfl)))),
      ⟨rfl, rfl, rfl, rfl, rfl, rfl, rfl⟩, rfl, rfl, rfl, rfl, rfl, rfl⟩
  | clientToServer =>
    exact ⟨_, _, _, .trans (client_to_server rfl rfl rfl) (.trans (server_to_client rfl rfl rfl)
      (.trans (client_to_server rfl ((if_neg hends).trans (if_pos (hend nofun))) rfl) (server_to_client rfl rfl rfl))),
      ⟨rfl, rfl, rfl, rfl, rfl, rfl, rfl⟩, rfl, append_assoc got [_] [_], append_assoc sent' [_] [_], rfl, rfl, rfl⟩

end Canonical

/-- A RENEW comes before an item exactly when the item before it closed the socket. -/
def clientMessages : Bool → List TestRequest → List Msg
  | _, [] => [.closed]
  | closed, item :: rest =>
    (if closed then [.renew] else []) ++ (itemRequest item ++ clientMessages (runs item) rest)

def serverMessages (env : Env) : ℕ → Bool → List TestRequest → List Msg
  | _, _, [] => []
  | id, closed, item :: rest =>
    (if closed then [.ready (env.port id)] else []) ++
      (itemReplies env id item ++ serverMessages env (id + (runs item).toNat) (runs item) rest)

def itemResults (env : Env) : ℕ → List TestRequest → List (Option (ℕ × TestResult))
  | _, [] => []
  | id, item :: rest => itemResult env id item :: itemResults env (id + (runs item).toNat) rest

theorem itemResults_getElem? (env : Env) (id : ℕ) (items : List TestRequest) (k : ℕ) : (itemResults env id items)[k]? =
      items[k]?.map (itemResult env (id + (items.take k).countP runs)) := by
  induction items generalizing id k with
  | nil => simp [itemResults]
  | cons item rest ih =>
    cases k with
    | zero => simp [itemResults]
    | succ k =>
      rw [itemResults, getElem?_cons_succ, getElem?_cons_succ, ih, take_succ_cons, countP_cons]
      congr 2
      cases runs item with
      | false => simp
      | true => simp only [Bool.toNat_true, if_true]; omega

theorem run_items (env : Env) {id : ℕ} (hrun : ∀ item ∈ rest, Runnable item ∧ ¬ Endless item) (h : AtLoop id closed rest a b) :
    ∃ n a' b', Runs env n (sys a b idle) (sys a' b' idle) ∧ a'.pc = .finished ∧ b'.pc = .finished ∧
      Logged a b a' b' (clientMessages closed rest) (serverMessages env id closed rest) (itemResults env id rest) := by
  induction rest generalizing id closed a b with
  | nil =>
    have hact : clientAct env a = .send .toServer .closed { a with pc := .finished, sent := a.sent ++ [.closed] } := by
      simp [clientAct, Client.schedule, Client.control, h.clientPc, h.items]
    have hserver : serverAct env b = .receive .toServer b.dispatch := by
      simp [serverAct, h.serverPc]
    exact ⟨2, _, _, client_to_server rfl hact hserver, rfl, rfl,
      ⟨rfl, (append_nil _).symm, (append_nil _).symm, rfl, (append_nil _).symm, rfl⟩⟩
  | cons item rest ih =>
    obtain ⟨n₁, a₁, b₁, hruns₁, hloop₁, hlog₁⟩ := run_renew h
    obtain ⟨hrunnable, hends⟩ := hrun item (mem_cons_self ..)
    obtain ⟨n₂, a₂, b₂, hruns₂, hloop₂, hlog₂⟩ := run_item hrunnable hends hloop₁
    obtain ⟨n₃, a₃, b₃, hruns₃, ha, hb, hlog₃⟩ :=
      ih (fun i hi => hrun i (mem_cons_of_mem _ hi)) hloop₂
    exact ⟨_, a₃, b₃, hruns₁.trans (hruns₂.trans hruns₃), ha, hb, hlog₁.trans (hlog₂.trans hlog₃)⟩

def initialClient (options : Options) (items : List TestRequest) : Client :=
  ⟨.sendHello options, items, options.tport, none, 0, [], [], []⟩

def initialServer : Server := ⟨.readHello, none, none, 0, 0, [], []⟩

structure Completed (env : Env) (options : Options) (items : List TestRequest)
    (s : State Side Chan Msg Proc) : Prop where
  clientPc : (s.proc .client : Client).pc = .finished
  serverPc : (s.proc .server : Server).pc = .finished
  unhandled : (s.proc .server : Server).unhandled = 0
  queue : s.queue = idle
  requests : (s.proc .client : Client).sent = .hello options :: clientMessages false items
  requestsGot : (s.proc .server : Server).got = .hello options :: clientMessages false items
  replies : (s.proc .server : Server).sent = .ready (env.port 0) :: serverMessages env 0 false items
  repliesGot : (s.proc .client : Client).got = .ready (env.port 0) :: serverMessages env 0 false items
  ran : ∀ k, (s.proc .client : Client).ran[k]? = items[k]?.map (itemResult env ((items.take k).countP runs))

variable {items : List TestRequest}

theorem run_hello (env : Env) (options : Options) (items : List TestRequest) :
    ∃ n a b, Runs env n (sys (initialClient options items) initialServer idle) (sys a b idle) ∧ AtLoop 0 false items a b ∧
      Logged (initialClient options items) initialServer a b [.hello options] [.ready (env.port 0)] [] :=
  run_asking rfl rfl ⟨rfl, rfl, rfl, rfl, rfl, rfl⟩ rfl rfl rfl rfl rfl

theorem run_session (env : Env) (options : Options) (hrun : ∀ item ∈ items, Runnable item ∧ ¬ Endless item) :
    ∃ n t, Runs env n (sys (initialClient options items) initialServer idle) t ∧
      Completed env options items t := by
  obtain ⟨n₀, a₀, b₀, hhello, hloop, hlog₀⟩ := run_hello env options items
  obtain ⟨n, a, b, hruns, ha, hb, hlog⟩ := run_items env hrun hloop
  replace hlog := hlog₀.trans hlog
  refine ⟨_, sys a b idle, hhello.trans hruns,
    ⟨ha, hb, hlog.unhandled, rfl, hlog.clientSent, hlog.serverGot, hlog.serverSent, hlog.clientGot, fun k => ?_⟩⟩
  have hget := itemResults_getElem? env 0 items k
  rw [Nat.zero_add] at hget
  rw [← hget]
  exact congrArg (·[k]?) hlog.ran

theorem run_before (env : Env) {before : List TestRequest} {id : ℕ} (hrun : ∀ item ∈ before, Runnable item ∧ ¬ Endless item)
    (h : AtLoop id closed (before ++ rest) a b) :
    ∃ n a' b' id' closed', Runs env n (sys a b idle) (sys a' b' idle) ∧ AtLoop id' closed' rest a' b' := by
  induction before generalizing id closed a b with
  | nil => exact ⟨0, a, b, id, closed, .refl _, h⟩
  | cons item before ih =>
    obtain ⟨hrunnable, hends⟩ := hrun item (mem_cons_self ..)
    obtain ⟨n₁, a₁, b₁, hruns₁, hloop₁, -⟩ := run_renew h
    obtain ⟨n₂, a₂, b₂, hruns₂, hloop₂, -⟩ := run_item hrunnable hends hloop₁
    obtain ⟨n₃, a₃, b₃, id', closed', hruns₃, hloop₃⟩ :=
      ih (fun i hi => hrun i (mem_cons_of_mem _ hi)) hloop₂
    exact ⟨_, a₃, b₃, id', closed', hruns₁.trans (hruns₂.trans hruns₃), hloop₃⟩

/-- One end is in `sendStream` for good. -/
theorem run_endless {id : ℕ} (hends : Endless item) (hdir : item.direction ≠ .null) (h : AtLoop id false (item :: rest) a b) :
    ∃ n s, Runs env n (sys a b idle) s ∧ Step (session env) s s := by
  obtain ⟨pc, items, tport, socket, conns, ran, sent, got⟩ := a
  obtain ⟨pc', options, sock, listens, unhandled, sent', got'⟩ := b
  obtain ⟨direction, bytes, duration, writeSize, randomise, protocol⟩ := item
  obtain ⟨⟨⟩, ⟨⟩, ⟨⟩, ⟨⟩, ⟨⟩, ⟨⟩, ⟨⟩⟩ := h
  cases direction with
  | null => exact absurd rfl hdir
  | serverToClient =>
    exact ⟨_, _, client_to_server rfl rfl rfl, server_works (if_pos ((endless_request _ _).mpr hends))⟩
  | clientToServer =>
    exact ⟨_, _, .trans (client_to_server rfl rfl rfl) (server_to_client rfl rfl rfl), client_works (if_pos hends)⟩

theorem run_hangs (env : Env) (options : Options) (hrun : ∀ item ∈ items, Runnable item)
    (hends : ∃ item ∈ items, Endless item) (n : ℕ) :
    ∃ m s, n ≤ m ∧ Runs env m (sys (initialClient options items) initialServer idle) s := by
  -- the first item that does not end is reached
  have hfound : (items.find? (Endless ·)).isSome := by simpa using hends
  obtain ⟨item, hfind⟩ := Option.isSome_iff_exists.mp hfound
  obtain ⟨hitem, before, rest, rfl, hbefore⟩ := find?_eq_some_iff_append.mp hfind
  simp only [decide_eq_true_eq, Bool.not_eq_true', decide_eq_false_iff_not] at hitem hbefore
  obtain ⟨n₀, a₀, b₀, hhello, hloop, -⟩ := run_hello env options (before ++ item :: rest)
  obtain ⟨n₁, a₁, b₁, id, closed, hruns₁, hloop₁⟩ := run_before env
    (fun i hi => ⟨hrun i (mem_append_left _ hi), hbefore i hi⟩) hloop
  obtain ⟨n₂, a₂, b₂, hruns₂, hloop₂, -⟩ := run_renew hloop₁
  obtain ⟨n₃, s, hruns₃, hself⟩ := run_endless hitem ((hrun item (by simp)).runs hitem) hloop₂
  have hstays : ∀ k, Run (Step (session env)) k s s := fun k => by
    induction k with
    | zero => exact .refl s
    | succ k ih => exact .head hself ih
  exact ⟨_, s, Nat.le_add_left n _, (hhello.trans (hruns₁.trans (hruns₂.trans hruns₃))).trans (hstays n)⟩

def Client.Grows (a a' : Client) : Prop := a.sent <+: a'.sent ∧ a.got <+: a'.got

def Server.Grows (b b' : Server) : Prop :=
  b.sent <+: b'.sent ∧ b.got <+: b'.got ∧ b.unhandled ≤ b'.unhandled

theorem Client.grows_readReady (a : Client) (pc : ClientPc) (m : Msg) : a.Grows (a.readReady pc m) := by
  cases m <;> simp [Client.Grows, Client.readReady, Client.fail]

theorem Client.grows_readResult (a : Client) (id : ℕ) (result : Report → TestResult) (m : Msg) :
    a.Grows (a.readResult id result m) := by
  cases m <;> simp [Client.Grows, Client.readResult, Client.fail, Client.store]

theorem Client.grows_connect (a : Client) (m : Msg) : a.Grows (a.connect m) := by
  rw [Client.connect]
  split_ifs <;> simp [Client.Grows, Client.fail]

theorem Server.grows_readHello (b : Server) (m : Msg) : b.Grows (b.readHello m) := by
  cases m <;> simp [Server.Grows, Server.readHello, Server.fail]

theorem Server.grows_accept (b : Server) (m : Msg) : b.Grows (b.accept m) := by
  cases m <;> simp [Server.Grows, Server.accept, Server.fail]

theorem Server.grows_dispatch (b : Server) (m : Msg) : b.Grows (b.dispatch m) := by
  have hgot : b.got <+: b.got ++ [m] := prefix_append _ _
  cases m with
  | receive | send | renew | closed => exact ⟨prefix_rfl, hgot, le_rfl⟩
  | _ => exact ⟨prefix_rfl, hgot, Nat.le_succ _⟩

theorem client_grows {a' : Client} {queue queue' : Chan → List Msg}
    (h : Effect (clientAct env a) queue a' queue') : a.pc ≠ .failed ∧ a.Grows a' := by
  generalize hact : clientAct env a = action at h
  refine ⟨?_, ?_⟩
  · intro hpc
    rw [clientAct, hpc] at hact
    cases hact
    cases h
  · unfold clientAct Client.schedule Client.control at hact
    repeat' split at hact
    all_goals cases hact
    all_goals cases h
    all_goals first
      | exact a.grows_readReady _ _
      | exact a.grows_readResult _ _ _
      | exact a.grows_connect _
      | simp [Client.Grows, Client.fail, Client.store]

theorem server_grows {b' : Server} {queue queue' : Chan → List Msg}
    (h : Effect (serverAct env b) queue b' queue') : b.pc ≠ .failed ∧ b.Grows b' := by
  generalize hact : serverAct env b = action at h
  refine ⟨?_, ?_⟩
  · intro hpc
    rw [serverAct, hpc] at hact
    cases hact
    cases h
  · unfold serverAct at hact
    repeat' split at hact
    all_goals cases hact
    all_goals cases h
    all_goals first
      | exact b.grows_readHello _
      | exact b.grows_accept _
      | exact b.grows_dispatch _
      | simp [Server.Grows, Server.fail, Server.control]

structure InStep (env : Env) (options : Options) (items : List TestRequest)
    (s : State Side Chan Msg Proc) : Prop where
  clientPc : (s.proc .client : Client).pc ≠ .failed
  serverPc : (s.proc .server : Server).pc ≠ .failed
  unhandled : (s.proc .server : Server).unhandled = 0
  requests : (s.proc .client : Client).sent <+: .hello options :: clientMessages false items
  requestsGot : (s.proc .server : Server).got <+: .hello options :: clientMessages false items
  replies : (s.proc .server : Server).sent <+: .ready (env.port 0) :: serverMessages env 0 false items
  repliesGot : (s.proc .client : Client).got <+: .ready (env.port 0) :: serverMessages env 0 false items

theorem Completed.inStep {s : State Side Chan Msg Proc} (h : Completed env options items s) : InStep env options items s where
  clientPc := by simp [h.clientPc]
  serverPc := by simp [h.serverPc]
  unhandled := h.unhandled
  requests := by rw [h.requests]
  requestsGot := by rw [h.requestsGot]
  replies := by rw [h.replies]
  repliesGot := by rw [h.repliesGot]

theorem Completed.final {s : State Side Chan Msg Proc} (h : Completed env options items s) : Final (Step (session env)) s := by
  rintro t ⟨heffect⟩
  rename_i i l queue
  cases i with
  | client =>
    have hact : (session env).act .client (s.proc .client) = .halt := by
      show clientAct env (s.proc .client) = .halt
      rw [clientAct, h.clientPc]
    rw [hact] at heffect
    cases heffect
  | server =>
    have hact : (session env).act .server (s.proc .server) = .halt := by
      show serverAct env (s.proc .server) = .halt
      rw [serverAct, h.serverPc]
    rw [hact] at heffect
    cases heffect

theorem InStep.before {s t : State Side Chan Msg Proc} (hstep : Step (session env) s t)
    (h : InStep env options items t) : InStep env options items s := by
  obtain ⟨heffect⟩ := hstep
  rename_i i l queue
  cases i with
  | client =>
    obtain ⟨hpc, hsent, hgot⟩ := client_grows heffect
    exact ⟨hpc, h.serverPc, h.unhandled, hsent.trans h.requests, h.requestsGot, h.replies, hgot.trans h.repliesGot⟩
  | server =>
    obtain ⟨hpc, hsent, hgot, hunhandled⟩ := server_grows heffect
    exact ⟨h.clientPc, hpc, Nat.le_zero.mp (hunhandled.trans h.unhandled.le), h.requests,
      hgot.trans h.requestsGot, hsent.trans h.replies, h.repliesGot⟩

/-- In every interleaving, and every run ends after the same number of steps with all results. -/
def StaysInStep (env : Env) (options : Options) (items : List TestRequest) : Prop :=
  ∃ n, (∃ t, Runs env n (sys (initialClient options items) initialServer idle) t) ∧
    ∀ m s, Runs env m (sys (initialClient options items) initialServer idle) s →
      m ≤ n ∧ InStep env options items s ∧ (m < n → ∃ s', Step (session env) s s') ∧ (m = n → Completed env options items s)

theorem not_staysInStep (env : Env) (options : Options) (hrun : ∀ item ∈ items, Runnable item)
    (hends : ∃ item ∈ items, Endless item) : ¬ StaysInStep env options items := by
  rintro ⟨n, -, hbound⟩
  obtain ⟨m, s, hle, hs⟩ := run_hangs env options hrun hends (n + 1)
  have hm := (hbound m s hs).1
  omega

theorem session_in_step_iff (env : Env) (options : Options) (requests : List (Options × CStr)) :
    StaysInStep env options (parseSchedules requests) ↔ ∀ item ∈ parseSchedules requests, ¬ Endless item := by
  have hrunnable := runnable_parseSchedules requests
  refine ⟨fun h item hitem hends => ?_, fun hends => ?_⟩
  · exact not_staysInStep env options hrunnable ⟨item, hitem, hends⟩ h
  obtain ⟨n, t, hrun, ht⟩ := run_session env options fun item hitem => ⟨hrunnable item hitem, hends item hitem⟩
  refine ⟨n, ⟨t, hrun⟩, fun m s hs => ?_⟩
  have hdiamond := step_diamond (session env)
  obtain ⟨k, hk, hrest⟩ := hdiamond.extends ht.final hrun hs
  refine ⟨by omega, ?_, ?_, ?_⟩
  · exact hdiamond.forall_reachable ht.final hrun hs (fun _ _ => InStep.before) ht.inStep
  · intro hm
    cases hrest with
    | refl => omega
    | head hstep _ => exact ⟨_, hstep⟩
  · intro hm
    obtain rfl : k = 0 := by omega
    cases hrest
    exact ht

def exampleEnv : Env :=
  ⟨fun _ => 4000, fun _ => ⟨10, 0, 1, none⟩, fun _ => ⟨10, 0, 1, none⟩, fun _ => ⟨10, 0, 1, none⟩, fun _ => ⟨10, 0, 1, none⟩⟩

/-- The options with `-z`; the value at the end is checked, the one at `-S` is not. -/
def sizeOptions (writeSize : UInt32) : Options := ⟨.none, 12345, writeSize, 0, 0, 0, 0, 0, 0, 0, 0⟩

theorem zero_write_size_hangs : parseSchedules [(sizeOptions 0, cstr "S10")] = [⟨.clientToServer, 10, 0, 0, 0, .none⟩] ∧
      ¬ StaysInStep exampleEnv (sizeOptions 1000) (parseSchedules [(sizeOptions 0, cstr "S10")]) := by
  have hparse : parseSchedules [(sizeOptions 0, cstr "S10")] = [⟨.clientToServer, 10, 0, 0, 0, .none⟩] := by
    decide +kernel
  refine ⟨hparse, not_staysInStep _ _ (runnable_parseSchedules _) ?_⟩
  rw [hparse]
  exact ⟨_, mem_singleton_self _, by decide⟩

end Amplet.ThroughputSession
