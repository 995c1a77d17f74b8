import Amplet.Failing
import Amplet.SocketAddress

/-!
# Probing one destination

Embedding of the part of `src/tests/traceroute/traceroute.c` that works on one
`dest_info_t`. Integers wrap when they are stored in their 8 bit fields. A packet is the
buffer it was received into. An access outside the array of hops, a null pointer or a
failed assertion is a fault.
-/

namespace Amplet.TracerouteProbe
open Failing SocketAddress

def lossTimeoutUs : ℤ := 2000000

def maxHopsInPath : ℤ := 30

def retryLimit : ℤ := 2

def noReplyLimit : ℤ := 5

def int8 (x : ℤ) : ℤ := (x + 128) % 256 - 128

def uint8 (x : ℤ) : ℤ := x % 256

inductive Fault
  | null
  | assertion
  | hop (index : ℤ)
deriving DecidableEq, Repr

inductive Reply
  | unknown
  | timedOut
  | ok
deriving DecidableEq, Repr

structure Hop where
  timeSent : ℤ
  delay : ℤ
  reply : Reply
  addr : Option SockAddr

structure Dest where
  addr : Option SockAddr
  id : ℤ
  probes : ℤ
  firstResponse : ℤ
  ttl : ℤ
  firstTtl : ℤ
  pathLength : ℤ
  doneForward : Bool
  attempts : ℤ
  noReplyCount : ℤ
  errType : ℤ
  errCode : ℤ
  hop : Fin 30 → Hop

def hopIndex (ttl : ℤ) : Except Fault (Fin 30) :=
  if h : 0 ≤ ttl - 1 ∧ ttl - 1 < 30 then .ok ⟨(ttl - 1).toNat, by omega⟩
  else .error (.hop (ttl - 1))

def Dest.setHop (d : Dest) (i : Fin 30) (f : Hop → Hop) : Dest :=
  { d with hop := Function.update d.hop i (f (d.hop i)) }

/-- Each turn raises a counter that ends the loop at the limit, also when it wraps, so six turns
are enough. -/
def skipTimedOut : ℕ → Dest → Except Fault Dest
  | 0, d => .ok d
  | n + 1, d => do
    let i ← hopIndex d.ttl
    if (d.hop i).reply = .timedOut then
      let d := { d with noReplyCount := uint8 (d.noReplyCount + 1) }
      if noReplyLimit ≤ d.noReplyCount then .ok d
      else skipTimedOut n { d with ttl := int8 (d.ttl + 1) }
    else .ok d

def incProbeTtl (d : Dest) : Except Fault Dest :=
  if d.ttl < maxHopsInPath then
    if retryLimit < d.attempts ∧ d.firstResponse = 0 then
      .ok { d with ttl := int8 (d.ttl.tdiv 2), noReplyCount := 0, attempts := 0 }
    else if d.doneForward = false then do
      let d ← skipTimedOut 6 { d with ttl := int8 (d.ttl + 1) }
      .ok { d with attempts := 0 }
    else .ok { d with ttl := int8 (d.ttl - 1), attempts := 0 }
  else .error .assertion

def giveUpForward (d : Dest) : Dest :=
  if d.doneForward = false ∧ (noReplyLimit ≤ d.noReplyCount ∨ maxHopsInPath ≤ d.ttl) then
    { d with
      doneForward := true, pathLength := uint8 d.ttl, ttl := int8 (d.firstResponse - 1)
      attempts := 0, noReplyCount := 0 }
  else d

def incAttemptCounter (d : Dest) : Except Fault (Dest × ℤ) :=
  let d := { d with attempts := uint8 (d.attempts + 1) }
  if d.attempts ≤ retryLimit then .ok (d, 1)
  else do
    let i ← hopIndex d.ttl
    let d := d.setHop i fun hop => { hop with addr := none, reply := .timedOut }
    let d :=
      if d.doneForward then d else { d with noReplyCount := uint8 (d.noReplyCount + 1) }
    let d ← if d.noReplyCount < noReplyLimit ∧ d.ttl < maxHopsInPath then incProbeTtl d else .ok d
    .ok (giveUpForward d, (giveUpForward d).ttl)

abbrev Packet := ℕ → UInt8

def word (p : Packet) (i : ℕ) : ℕ := (p i).toNat * 256 + (p (i + 1)).toNat

def headerLen (p : Packet) (i : ℕ) : ℕ := (p i).toNat % 16 * 4

def getEmbeddedIpv4Packet (p : Packet) : Except Fault (Option ℕ) :=
  if (p 0).toNat / 16 = 4 ∧ 5 ≤ (p 0).toNat % 16 then
    if word p 2 < headerLen p 0 + 8 + 20 + 8 then .ok none
    else if (p (headerLen p 0 + 8 + 9)).toNat = 17 then .ok (some (headerLen p 0 + 8))
    else .ok none
  else .error .assertion

def getEmbeddedIpv6Packet (p : Packet) : Option ℕ :=
  if (p 0).toNat ≠ 1 ∧ (p 0).toNat ≠ 3 then none else some 8

def getEmbeddedPacket (source : SockAddr) (p : Packet) : Except Fault (Option ℕ) :=
  match source with
  | .inet _ => getEmbeddedIpv4Packet p
  | .inet6 _ => .ok (getEmbeddedIpv6Packet p)
  | .other _ _ => .ok none

def probeFields (source : SockAddr) (p : Packet) (embedded : ℕ) : Option (ℕ × ℕ) :=
  match source with
  | .inet _ =>
    if (p (embedded + 9)).toNat = 17 then
      some (word p (embedded + 4), word p (embedded + headerLen p embedded))
    else none
  | .inet6 _ =>
    let fragment := (p (embedded + 6)).toNat = 44
    let udp := if fragment then embedded + 40 + 8 else embedded + 40
    let nextHeader := if fragment then (p (embedded + 40)).toNat else (p (embedded + 6)).toNat
    if nextHeader = 17 then some (word p (udp + 8), word p (udp + 10)) else none
  | .other _ _ => none

def getIndex (e : Endian) (source : SockAddr) (p : Packet) (embedded ident count : ℕ) : Option ℕ :=
  match probeFields source p embedded with
  | none => none
  | some (index, id) =>
    if id ≠ ident then none
    else if count ≤ index % 1024 then
      -- some boxes swap the bytes of the field
      let swapped := ((ntohs e).swap (BitVec.ofNat 16 index)).toNat
      if swapped % 1024 < count then some swapped else none
    else some index

def icmpOffset (source : SockAddr) (p : Packet) : ℕ :=
  match source with
  | .inet _ => headerLen p 0
  | _ => 0

def getIcmpType (source : SockAddr) (p : Packet) : ℤ := (p (icmpOffset source p)).toNat

def getIcmpCode (source : SockAddr) (p : Packet) : ℤ := (p (icmpOffset source p + 1)).toNat

def getTtl (source : SockAddr) (p : Packet) (i : ℕ) : ℤ :=
  match source with
  | .inet _ => (p (i + 8)).toNat
  | .inet6 _ => (p (i + 7)).toNat
  | .other _ _ => -1

def unexpectedError (source : SockAddr) (type : ℤ) : Bool :=
  match source with
  | .inet _ => type ≠ 11 && type ≠ 3
  | .inet6 _ => type ≠ 3 && type ≠ 1
  | .other _ _ => false

def terminalError (source : SockAddr) (type code : ℤ) : ℤ :=
  match source with
  | .inet _ =>
    if type ≠ 12 ∧ type ≠ 3 then 0 else if type = 3 ∧ code = 3 then 1 else 2
  | .inet6 _ =>
    if type ≠ 4 ∧ type ≠ 1 then 0 else if type = 1 ∧ code = 4 then 1 else 2
  | .other _ _ => 2

structure Answer where
  source : SockAddr
  index : ℕ
  type : ℤ
  code : ℤ
  embeddedTtl : ℤ

def readPacket (e : Endian) (ident count : ℕ) (source : SockAddr) (p : Packet) : Except Fault (Option Answer) := do
  match ← getEmbeddedPacket source p with
  | none => .ok none
  | some embedded =>
    .ok ((getIndex e source p embedded ident count).map fun index =>
      { source := source
        index := index
        type := getIcmpType source p
        code := getIcmpCode source p
        embeddedTtl := getTtl source p embedded })

def Answer.terminal (a : Answer) : ℤ := terminalError a.source a.type a.code

/-- An error that is not normally useful, or a port unreachable that is not from
the destination. -/
def Answer.unexpected (e : Endian) (a : Answer) (d : Dest) : Bool :=
  unexpectedError a.source a.type || (a.terminal = 1 &&
      match d.addr with
      | none => true
      | some address => compareAddresses e address a.source 0 ≠ 0)

inductive Move
  | ready
  | done
  | lost
deriving DecidableEq, Repr

def Dest.reprobe (d : Dest) : Dest × Move :=
  if d.ttl = 0 then (d, .done) else ({ d with attempts := 0, noReplyCount := 0 }, .ready)

def endForward (d : Dest) : Dest × Move :=
  Dest.reprobe { d with
    pathLength := uint8 (d.ttl - d.noReplyCount - 1)
    doneForward := true
    ttl := int8 (d.firstResponse - 1) }

def unexpectedReply (a : Answer) (d : Dest) : Except Fault (Dest × Move) :=
  let d := { d with errType := uint8 a.type, errCode := uint8 a.code }
  if a.terminal = 0 then do
    let (d, tries) ← incAttemptCounter d
    if tries ≠ 0 then .ok (d, .ready) else .ok (endForward d)
  else .ok (endForward d)

def endOfPath (a : Answer) (d : Dest) : Dest × Move :=
  let d := { d with pathLength := uint8 d.ttl }
  Dest.reprobe (if d.doneForward ∧ a.terminal = 1 then { d with ttl := int8 (d.ttl - 1) }
    else
      { d with
        doneForward := true
        ttl := int8 (d.firstResponse - 1)
        errType := if a.terminal = 2 then uint8 a.type else d.errType
        errCode := if a.terminal = 2 then uint8 a.code else d.errCode })

def expectedReply (a : Answer) (ttl : ℤ) (d : Dest) : Except Fault (Dest × Move) := do
  let i ← hopIndex ttl
  let d := d.setHop i fun hop => { hop with reply := .ok, addr := some a.source }
  if d.doneForward ∧ d.ttl = 1 then .ok (d, .done)
  else if a.terminal ≠ 0 ∨ maxHopsInPath ≤ d.ttl then .ok (endOfPath a d)
  else if (d.hop i).delay < lossTimeoutUs then do
    let d ← incProbeTtl { d with noReplyCount := 0, attempts := 0 }
    .ok (d, if d.ttl < 1 then .done else .ready)
  else .ok (d, .lost)

def Hop.replyDelay (hop : Hop) (now : ℤ) : ℤ :=
  if hop.delay = 0 then
    if 0 < now - hop.timeSent then (now - hop.timeSent) % 2 ^ 32 else 0
  else hop.delay

def recordReply (e : Endian) (a : Answer) (now ttl : ℤ) (d : Dest) : Except Fault (Dest × Move) := do
  let d := { d with firstResponse := if d.firstResponse = 0 then int8 ttl else d.firstResponse }
  let i ← hopIndex ttl
  let d := d.setHop i fun hop => { hop with delay := hop.replyDelay now }
  if a.unexpected e d then unexpectedReply a d else expectedReply a ttl d

def processReply (e : Endian) (a : Answer) (now : ℤ) (d : Dest) : Except Fault (Dest × Move) :=
  if a.terminal ≠ 0 ∧ d.ttl = d.firstTtl then
    -- the target was hit by the first probe, whose TTL says how far it is
    let ttl := d.firstTtl - a.embeddedTtl + 1
    if ttl < 0 ∨ maxHopsInPath < ttl then .ok ({ d with pathLength := 0 }, .done)
    else do
      let i ← hopIndex ttl
      let j ← hopIndex d.firstTtl
      let d := { d with ttl := int8 ttl }
      recordReply e a now ttl (d.setHop i fun hop => { hop with timeSent := (d.hop j).timeSent })
  else recordReply e a now d.ttl d

def processTimeout (d : Dest) : Except Fault (Dest × Move) := do
  let (d, tries) ← incAttemptCounter d
  .ok (d, if tries ≠ 0 then .ready else .done)

structure Sending where
  hopLimitSet : Bool
  whole : Bool
  time : ℤ

def Sending.reaches (r : Sending) : Option SockAddr → Bool
  | some (.inet _) => true
  | some (.inet6 _) => r.hopLimitSet
  | _ => false

def sendProbe (r : Sending) (d : Dest) : Except Fault (Dest × Bool) :=
  if r.reaches d.addr then do
    let i ← hopIndex d.ttl
    let d := d.setHop i fun hop => { hop with timeSent := r.time }
    let d := { d with probes := (d.probes + 1) % 2 ^ 32 }
    if r.whole then .ok (d, true)
    else
      .ok ({ d with
        doneForward := true
        pathLength := noReplyLimit
        hop := fun i => if i < 5 then { d.hop i with addr := none } else d.hop i }, false)
  else .ok (d, false)

end Amplet.TracerouteProbe
