import Amplet.Bytes

/-!
# Schedules of the throughput test

Embedding of `parseSchedule` in `src/tests/throughput/throughput_client.c` and of the
records of `throughput.h`. The text that is kept for the report is left out.
`sendStream` refuses a request without a stopping condition, and does not return from
one that only bytes can stop if it writes none at a time.
-/

namespace Amplet.ThroughputSchedule
open Bytes Delimited

inductive Direction
  | null
  | serverToClient
  | clientToServer
deriving DecidableEq, Repr

inductive Protocol
  | none
  | httpPost
deriving DecidableEq, Repr

structure TcpInfo where
  deliveryRate : UInt64
  totalRetrans : UInt32
  rtt : UInt32
  rttvar : UInt32
  minRtt : UInt32
  busyTime : UInt64
  rwndLimited : UInt64
  sndbufLimited : UInt64
deriving DecidableEq, Repr

structure TestResult where
  bytes : UInt64
  startNs : UInt64
  endNs : UInt64
  tcpinfo : Option TcpInfo
deriving DecidableEq, Repr

structure TestRequest where
  direction : Direction
  bytes : UInt64
  duration : UInt32
  writeSize : UInt32
  randomise : UInt32
  protocol : Protocol
deriving DecidableEq, Repr

structure Options where
  protocol : Protocol
  tport : UInt16
  writeSize : UInt32
  sockMss : Int32
  sockDisableNagle : UInt8
  randomise : UInt8
  disableWeb10g : UInt8
  reuseAddr : UInt8
  sockRcvbuf : Int32
  sockSndbuf : Int32
  dscp : UInt8
deriving DecidableEq, Repr

def comma : UInt8 := 44

def scheduleArg (token : CStr) : ℤ :=
  match token with
  | _ :: b :: rest => strtol (b :: rest)
  | _ => 0

def nullRequest (options : Options) : TestRequest :=
  ⟨.null, 0, 0, options.writeSize, options.randomise.toUInt32, options.protocol⟩

/-- The deprecated and the unknown codes leave the direction as it is. -/
def scheduleCode (token : CStr) (request : TestRequest) : TestRequest :=
  let arg := scheduleArg token
  match token.head? with
  | some 115 => { request with direction := .serverToClient, bytes := UInt64.ofInt arg }
  | some 83 => { request with direction := .clientToServer, bytes := UInt64.ofInt arg }
  | some 116 => { request with direction := .serverToClient, duration := UInt32.ofInt arg }
  | some 84 => { request with direction := .clientToServer, duration := UInt32.ofInt arg }
  | _ => request

def HasEnd (request : TestRequest) : Prop := ¬ (request.bytes = 0 ∧ request.duration = 0)

instance (request : TestRequest) : Decidable (HasEnd request) := inferInstanceAs (Decidable (¬ _))

/-- Each turn of the loop in `sendStream` writes nothing. -/
def Endless (request : TestRequest) : Prop :=
  request.bytes ≠ 0 ∧ request.duration = 0 ∧ request.writeSize = 0

instance (request : TestRequest) : Decidable (Endless request) := inferInstanceAs (Decidable (_ ∧ _))

def parseItem (options : Options) (token : CStr) : TestRequest :=
  let request := scheduleCode token (nullRequest options)
  if request.direction ≠ .null ∧ ¬ HasEnd request then { request with direction := .null }
  else request

def parseSchedule (options : Options) (schedule : List TestRequest) (request : CStr) :
    List TestRequest :=
  schedule ++ (tokens comma request).map (parseItem options)

def parseSchedules (requests : List (Options × CStr)) : List TestRequest :=
  requests.foldl (fun schedule r => parseSchedule r.1 schedule r.2) []

structure Runnable (request : TestRequest) : Prop where
  hasEnd : request.direction ≠ .null → HasEnd request
  bytes : request.direction = .null → request.bytes = 0

theorem bytes_scheduleCode {options : Options} {token : CStr} (h : (scheduleCode token (nullRequest options)).direction = .null) :
    (scheduleCode token (nullRequest options)).bytes = 0 := by
  rw [scheduleCode] at h ⊢
  split at h
  · cases h
  · cases h
  · cases h
  · cases h
  · rfl

theorem runnable_parseItem (options : Options) (token : CStr) : Runnable (parseItem options token) := by
  rw [parseItem]
  split_ifs with h
  · exact ⟨fun hnull => absurd rfl hnull, fun _ => (not_not.mp h.2).1⟩
  · exact ⟨fun hdir => not_not.mp fun hend => h ⟨hdir, hend⟩, bytes_scheduleCode⟩

theorem Runnable.runs {request : TestRequest} (h : Runnable request) (hendless : Endless request) :
    request.direction ≠ .null := fun hnull => hendless.1 (h.bytes hnull)

theorem runnable_parseSchedule {options : Options} {schedule : List TestRequest}
    (h : ∀ request ∈ schedule, Runnable request) (text : CStr) :
    ∀ request ∈ parseSchedule options schedule text, Runnable request := by
  intro request hmem
  rcases List.mem_append.mp hmem with hold | hnew
  · exact h request hold
  · obtain ⟨token, -, rfl⟩ := List.mem_map.mp hnew
    exact runnable_parseItem options token

theorem runnable_parseSchedules (requests : List (Options × CStr)) : ∀ request ∈ parseSchedules requests, Runnable request := by
  suffices h : ∀ schedule : List TestRequest, (∀ request ∈ schedule, Runnable request) →
      ∀ request ∈ requests.foldl (fun schedule r => parseSchedule r.1 schedule r.2) schedule, Runnable request from h [] (by simp)
  induction requests with
  | nil => exact fun schedule h => h
  | cons r requests ih => exact fun schedule h => ih _ (runnable_parseSchedule h r.2)

end Amplet.ThroughputSchedule
