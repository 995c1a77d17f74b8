import Amplet.TracerouteProbe

/-!
# The lists of destinations and the callbacks

Embedding of `src/tests/traceroute/traceroute.c`, from the four linked lists to the
callbacks of the event loop. A destination is a pointer, the number it was created with,
and the links are kept apart. A timer is set or not. The event loop calls back until it
is stopped.
-/

namespace Amplet.TracerouteLists
open SocketAddress TracerouteProbe

structure Lists where
  next : ℕ → Option ℕ
  pending : Option ℕ
  ready : Option ℕ
  readyEnd : Option ℕ
  outstanding : Option ℕ
  outstandingEnd : Option ℕ
  done : Option ℕ

def Lists.setNext (l : Lists) (p : ℕ) (link : Option ℕ) : Lists :=
  { l with next := Function.update l.next p link }

def Lists.findFrom (l : Lists) (found : ℕ → Bool) : ℕ → ℕ → Option ℕ → Option ℕ × Lists
  | 0, _, _ => (none, l)
  | _ + 1, _, none => (none, l)
  | turns + 1, prev, some p =>
    if found p then
      let l := l.setNext prev (l.next p)
      let l := { l with
        outstandingEnd := if (l.next prev).isNone then some prev else l.outstandingEnd }
      (some p, l.setNext p none)
    else l.findFrom found turns p (l.next p)

def Lists.findOutstandingItem (l : Lists) (found : ℕ → Bool) (turns : ℕ) : Option ℕ × Lists :=
  match l.outstanding with
  | none => (none, l)
  | some p =>
    if found p then
      let l := { l with
        outstanding := l.next p
        outstandingEnd := if (l.next p).isNone then none else l.outstandingEnd }
      (some p, l.setNext p none)
    else l.findFrom found turns p (l.next p)

def Lists.appendReadyItem (l : Lists) (p : ℕ) : Except Fault (Lists × ℤ) :=
  let l := l.setNext p none
  if l.ready.isNone then .ok ({ l with ready := some p, readyEnd := some p }, 1)
  else
    match l.readyEnd with
    | none => .error .null
    | some last => .ok ({ l.setNext last (some p) with readyEnd := some p }, 0)

def Lists.enqueueNextPending (l : Lists) : Except Fault (Lists × ℤ) :=
  match l.pending with
  | none => .ok (l, 0)
  | some p => Lists.appendReadyItem { l with pending := l.next p } p

def Lists.pushDone (l : Lists) (p : ℕ) : Lists := { l.setNext p l.done with done := some p }

def Lists.popReady (l : Lists) (p : ℕ) : Lists :=
  { l with
    ready := l.next p
    readyEnd := if (l.next p).isNone then none else l.readyEnd }.setNext p none

def Lists.popOutstanding (l : Lists) (p : ℕ) : Lists :=
  { l with
    outstanding := l.next p
    outstandingEnd := if (l.next p).isNone then none else l.outstandingEnd }

def Lists.appendOutstanding (l : Lists) (p : ℕ) : Except Fault Lists :=
  if l.outstanding.isNone then .ok { l with outstanding := some p, outstandingEnd := some p }
  else
    match l.outstandingEnd with
    | none => .error .null
    | some last => .ok { l.setNext last (some p) with outstandingEnd := some p }

structure ProbeList where
  lists : Lists
  item : ℕ → Dest
  sendtimer : Bool
  timeout : Bool
  stopped : Bool
  count : ℕ
  doneCount : ℕ
  ident : ℕ
  totalProbes : ℤ

def ProbeList.setItem (s : ProbeList) (p : ℕ) (d : Dest) : ProbeList :=
  { s with item := Function.update s.item p d }

def ProbeList.setDoneItem (s : ProbeList) (p : ℕ) : ProbeList :=
  { s.setItem p { s.item p with doneForward := true } with
    lists := s.lists.pushDone p
    doneCount := (s.doneCount + 1) % 2 ^ 32 }

/-- The value says whether the ready list was empty and is no longer. -/
def ProbeList.settle (s : ProbeList) (p : ℕ) : Move → Except Fault (ProbeList × ℤ)
  | .ready => do
    let (l, started) ← s.lists.appendReadyItem p
    .ok ({ s with lists := l }, started)
  | .done => do
    let s := s.setDoneItem p
    let (l, started) ← s.lists.enqueueNextPending
    .ok ({ s with lists := l }, started)
  | .lost => .ok (s, 0)

def ProbeList.Answers (s : ProbeList) (a : Answer) (p : ℕ) : Prop :=
  (s.item p).id = (a.index % 1024 : ℕ) ∧ (s.item p).ttl = (a.index / 1024 : ℕ)

instance (s : ProbeList) (a : Answer) (p : ℕ) : Decidable (s.Answers a p) :=
  inferInstanceAs (Decidable (_ ∧ _))

def ProbeList.processAnswer (s : ProbeList) (e : Endian) (a : Answer) (now : ℤ) : Except Fault (ProbeList × ℤ) :=
  match s.lists.findOutstandingItem (fun p => s.Answers a p) s.count with
  | (none, l) => .ok ({ s with lists := l }, -1)
  | (some p, l) => do
    let (d, move) ← processReply e a now (s.item p)
    ({ s with lists := l }.setItem p d).settle p move

def processPacket (e : Endian) (source : SockAddr) (packet : Packet) (now : ℤ) (s : ProbeList) :
    Except Fault (ProbeList × ℤ) := do
  match ← readPacket e s.ident s.count source packet with
  | none => .ok (s, -1)
  | some a => s.processAnswer e a now

def ProbeList.startSendtimer (s : ProbeList) (needed : Bool) : Except Fault ProbeList :=
  if needed then if s.sendtimer then .error .assertion else .ok { s with sendtimer := true }
  else .ok s

def ProbeList.restartTimeout (s : ProbeList) (p : ℕ) : Except Fault ProbeList := do
  let _ ← hopIndex (s.item p).ttl
  .ok { s with timeout := true }

structure Received where
  source : SockAddr
  packet : Packet
  now : ℤ

def ProbeList.afterPacket (s : ProbeList) (started : ℤ) (head : Option ℕ) :
    Except Fault ProbeList := do
  let s ← s.startSendtimer (0 < started)
  match s.lists.outstanding with
  | none => .ok { s with timeout := false, stopped := s.stopped || s.lists.ready.isNone }
  | some p => if s.lists.outstanding ≠ head then s.restartTimeout p else .ok s

def recvProbeCallback (e : Endian) (received : Option Received) (s : ProbeList) :
    Except Fault ProbeList :=
  match received with
  | none => .ok s
  | some r => do
    let (s', started) ← processPacket e r.source r.packet r.now s
    s'.afterPacket started s.lists.outstanding

def ProbeList.trackProbe (s : ProbeList) (p : ℕ) : Except Fault ProbeList := do
  let l ← s.lists.appendOutstanding p
  .ok { s with
    lists := l
    timeout := s.timeout || s.lists.outstanding.isNone
    totalProbes := s.totalProbes + 1 }

def sendProbeCallback (r : Sending) (s : ProbeList) : Except Fault ProbeList :=
  let s := { s with sendtimer := false }
  match s.lists.ready with
  | none => .ok s
  | some p => do
    let s := { s with lists := s.lists.popReady p }
    let (d, sent) ← sendProbe r (s.item p)
    let s := s.setItem p d
    if sent then do
      let s ← s.trackProbe p
      s.startSendtimer s.lists.ready.isSome
    else do
      let (s, _) ← s.settle p .done
      if s.lists.outstanding.isNone ∧ s.lists.ready.isNone then .ok { s with stopped := true }
      else s.startSendtimer s.lists.ready.isSome

def ProbeList.afterTimeout (s : ProbeList) : Except Fault ProbeList := do
  let s ← s.startSendtimer (s.sendtimer = false ∧ s.lists.ready.isSome)
  match s.lists.outstanding with
  | some p => s.restartTimeout p
  | none => .ok { s with stopped := s.stopped || s.lists.ready.isNone }

def probeTimeoutCallback (s : ProbeList) : Except Fault ProbeList :=
  match s.lists.outstanding, s.lists.outstandingEnd with
  | some p, some _ => do
    let s := { s with timeout := false, lists := s.lists.popOutstanding p }
    let (d, move) ← processTimeout (s.item p)
    let (s, _) ← (s.setItem p d).settle p move
    s.afterTimeout
  | _, _ => .error .assertion

structure Target where
  addr : Option SockAddr
  random : Fin (2 ^ 31)

def minInitialTtl : ℤ := 3

def maxInitialTtl : ℤ := 8

def Target.firstTtl (t : Target) : ℤ :=
  minInitialTtl + (maxInitialTtl - minInitialTtl) * (t.random : ℕ) / 2 ^ 31

def Target.item (t : Target) (id : ℕ) : Dest :=
  { addr := t.addr, id := id, probes := 0, firstResponse := 0
    ttl := t.firstTtl, firstTtl := t.firstTtl, pathLength := 0, doneForward := false
    attempts := 0, noReplyCount := 0, errType := 0, errCode := 0
    hop := fun _ => { timeSent := 0, delay := 0, reply := .unknown, addr := none } }

def createItems : List Target → ℕ → ℤ → ProbeList → Except Fault ProbeList
  | [], _, _, s => .ok s
  | t :: targets, i, window, s => do
    let s := { s.setItem i (t.item i) with lists := s.lists.setNext i none }
    if window ≠ 0 then do
      let (l, _) ← s.lists.appendReadyItem i
      createItems targets (i + 1) (window - 1) { s with lists := l }
    else
      let l := { s.lists.setNext i s.lists.pending with pending := some i }
      createItems targets (i + 1) window { s with lists := l }

structure Config where
  targets : List Target
  window : ℤ
  ident : ℕ

def noItem : Dest := Target.item { addr := none, random := 0 } 0

def Config.empty (c : Config) : ProbeList :=
  { lists :=
      { next := fun _ => none, pending := none, ready := none, readyEnd := none
        outstanding := none, outstandingEnd := none, done := none }
    item := fun _ => noItem
    sendtimer := false, timeout := false, stopped := false
    count := c.targets.length, doneCount := 0, ident := c.ident, totalProbes := 0 }

def runTraceroute (c : Config) : Except Fault ProbeList := do
  let s ← createItems c.targets 0 c.window c.empty
  .ok { s with sendtimer := true }

inductive Event
  | send (r : Sending)
  | recv (received : Option Received)
  | timeout

def step (e : Endian) (s : ProbeList) : Event → Except Fault ProbeList
  | .send r => sendProbeCallback r s
  | .recv received => recvProbeCallback e received s
  | .timeout => probeTimeoutCallback s

/-- The kernel has checked the header of an IPv4 packet. -/
def Received.Delivered (r : Received) : Prop :=
  match r.source with
  | .inet _ => (r.packet 0).toNat / 16 = 4 ∧ 5 ≤ (r.packet 0).toNat % 16
  | .inet6 _ => True
  | .other _ _ => False

def Enabled (s : ProbeList) : Event → Prop
  | .send _ => s.sendtimer = true
  | .recv none => True
  | .recv (some r) => r.Delivered
  | .timeout => s.timeout = true

/-- The callbacks that were made, the last one first, each with the state it was made in. -/
inductive Run (e : Endian) (c : Config) : List (ProbeList × Event) → Except Fault ProbeList → Prop
  | start : Run e c [] (runTraceroute c)
  | step {steps : List (ProbeList × Event)} {s : ProbeList} {event : Event}
      (run : Run e c steps (.ok s)) (live : s.stopped = false) (enabled : Enabled s event) :
      Run e c ((s, event) :: steps) (step e s event)

end Amplet.TracerouteLists
