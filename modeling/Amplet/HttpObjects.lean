import Amplet.HttpUrl

/-!
# Objects of the HTTP test

Embedding of the queues of `src/tests/http/http.c` and `src/tests/http/servers.c`:
`add_object`, `pipeline_next_object` and `save_stats` move objects along them. A pointer
to a server is the name of the server, since names are distinct. Ending the process, by
an assertion or a bad index, is having no result.
-/

namespace Amplet.HttpObjects
open List Bytes HttpUrl

def maxUrlLen : ℕ := maxPathLen + maxDnsNameLen + 1

structure HttpObject where
  serverName : CStr
  path : CStr
  url : CStr
  handle : ℕ
  parse : Bool
  location : Option CStr
  code : ℤ
  pipeline : UInt8
deriving DecidableEq, Repr

structure Server where
  name : CStr
  objects : UInt32
  failedObjects : UInt32
  pipeliningMaxrequests : UInt32
  pipelen : List UInt32
  pipelines : List (List HttpObject)
  pending : List HttpObject
  finished : List HttpObject
deriving DecidableEq, Repr

structure Options where
  totalPipelines : ℕ
  pipeSizeBeforeSkip : UInt32
  pipelining : Bool
  pipeliningMaxrequests : UInt32

structure State where
  servers : List Server
  base : Option UrlBase
  handles : ℕ
deriving DecidableEq, Repr

def createServer (opts : Options) (name : CStr) : Server where
  name := name.take (maxDnsNameLen - 1)
  objects := 0
  failedObjects := 0
  pipeliningMaxrequests := 1
  pipelen := replicate opts.totalPipelines 0
  pipelines := replicate opts.totalPipelines []
  pending := []
  finished := []

def getServer (opts : Options) (name : CStr) : List Server → List Server
  | [] => [createServer opts name]
  | server :: servers =>
    if name = server.name then server :: servers else server :: getServer opts name servers

def findServer (name : CStr) (servers : List Server) : Option Server :=
  servers.find? fun server => name = server.name

def updateServer (name : CStr) (f : Server → Server) : List Server → List Server
  | [] => []
  | server :: servers =>
    if name = server.name then f server :: servers else server :: updateServer name f servers

def isObjectInQueue (path : CStr) : List HttpObject → Bool
  | [] => false
  | object :: queue => if path = object.path then true else isObjectInQueue path queue

def addObjectToQueue (object : HttpObject) : List HttpObject → List HttpObject
  | [] => [object]
  | first :: queue => first :: addObjectToQueue object queue

def popObjectFromQueue (path : CStr) : List HttpObject → List HttpObject × Option HttpObject
  | [] => ([], none)
  | object :: queue =>
    if path = object.path then (queue, some object)
    else (object :: (popObjectFromQueue path queue).1, (popObjectFromQueue path queue).2)

def newObject (host path : CStr) (parse : Bool) : HttpObject :=
  ⟨host.take (maxDnsNameLen - 1), path.take (maxPathLen - 1), [], 0, parse, none, 0, 0⟩

def createObject (host path : CStr) (parse : Bool) : List HttpObject → List HttpObject
  | [] => [newObject host path parse]
  | object :: queue =>
    if object.serverName = host ∧ object.path = path then object :: queue
    else object :: createObject host path parse queue

def enqueueObject (host path : CStr) (parse : Bool) (server : Server) : Server :=
  if isObjectInQueue path server.finished then server
  else if server.pipelines.any (isObjectInQueue path) then server
  else { server with pending := createObject host path parse server.pending }

def addObject (opts : Options) (memory : CStr) (s : State) (url : CStr) (parse : Bool) : Option (State × Option CStr) :=
  if 32 ∈ url ∨ 13 ∈ url then some (s, none)
  else
    match splitUrl memory s.base url parse with
    | none => none
    | some split =>
      some ({ s with
        servers := updateServer split.server (enqueueObject split.server split.path parse) (getServer opts split.server s.servers)
        base := split.base }, some split.server)

def scanPipelines (threshold maxrequests : UInt32) : ℕ → UInt32 → Option ℕ → List (List HttpObject) → List UInt32 × Option ℕ
  | _, smallestSize, smallestIndex, [] =>
    ([], if smallestSize < maxrequests then smallestIndex else none)
  | i, smallestSize, smallestIndex, pipeline :: pipelines =>
    let len := UInt32.ofNat pipeline.length
    if len < threshold ∧ len < maxrequests then ([len], some i)
    else
      let smallest := if len < smallestSize then (len, some i) else (smallestSize, smallestIndex)
      let rest := scanPipelines threshold maxrequests (i + 1) smallest.1 smallest.2 pipelines
      (len :: rest.1, rest.2)

/-- The first pipeline is read while no object has arrived. -/
def selectPipeline (threshold : UInt32) (server : Server) : Option (Server × Option ℕ) :=
  if server.objects < 1 then
    match server.pipelines with
    | [] => none
    | first :: _ => some (server, if first = [] then some 0 else none)
  else
    let scan := scanPipelines threshold server.pipeliningMaxrequests 0 (server.pipeliningMaxrequests + 1) none server.pipelines
    some ({ server with pipelen := scan.1 ++ server.pipelen.drop scan.1.length }, scan.2)

def pipelineNextObject (opts : Options) (handle : ℕ) (server : Server) : Option (Server × Option HttpObject) :=
  match server.pending with
  | [] => some (server, none)
  | object :: pending =>
    match selectPipeline opts.pipeSizeBeforeSkip server with
    | none => none
    | some (server, none) => some (server, none)
    | some (server, some i) =>
      let object := { object with
        url := (object.serverName ++ object.path).take (maxUrlLen - 1), handle := handle }
      some ({ server with
        pending := pending
        pipelines := server.pipelines.modify i (addObjectToQueue object) }, some object)

def nextObject (opts : Options) (s : State) (name : Option CStr) : Option (State × Option HttpObject) :=
  match name.bind fun name => findServer name s.servers with
  | none => some (s, none)
  | some server =>
    match pipelineNextObject opts (s.handles + 1) server with
    | none => none
    | some (server', object) =>
      some ({ s with
        servers := updateServer server.name (fun _ => server') s.servers
        handles := s.handles + 1 }, object)

def popFromPipelines (path : CStr) : ℕ → List (List HttpObject) → List (List HttpObject) × Option (HttpObject × ℕ)
  | _, [] => ([], none)
  | i, pipeline :: pipelines =>
    match popObjectFromQueue path pipeline with
    | (pipeline, some object) => (pipeline :: pipelines, some (object, i))
    | (pipeline, none) =>
      (pipeline :: (popFromPipelines path (i + 1) pipelines).1, (popFromPipelines path (i + 1) pipelines).2)

def finishObject (server : Server) (pipelines : List (List HttpObject)) (object : HttpObject) (code : ℤ) : Server :=
  { server with
    objects := if 0 < code then server.objects + 1 else server.objects
    failedObjects := if 0 < code then server.failedObjects else server.failedObjects + 1
    pipelines := pipelines
    finished := addObjectToQueue object server.finished }

def saveStats (memory : CStr) (s : State) (url : CStr) (code : ℤ) : Option (State × HttpObject) :=
  match splitUrl memory s.base url false with
  | none => none
  | some split =>
    match findServer split.server s.servers with
    | none => none
    | some server =>
      match popFromPipelines split.path 0 server.pipelines with
      | (_, none) => none
      | (pipelines, some (object, i)) =>
        let object := { object with code := code, pipeline := UInt8.ofNat i }
        some ({ s with
          servers := updateServer server.name (fun _ => finishObject server pipelines object code) s.servers
          base := split.base }, object)

def statusLine (opts : Options) (http11 : Bool) (server : Server) : Server :=
  if opts.pipelining then
    { server with pipeliningMaxrequests := if http11 then opts.pipeliningMaxrequests else 1 }
  else server

def setLocation (handle : ℕ) (location : CStr) (object : HttpObject) : HttpObject :=
  if object.handle = handle then { object with location := some location } else object

def locationHeader (handle : ℕ) (location : CStr) (server : Server) : Server :=
  { server with
    pipelines := server.pipelines.map (map (setLocation handle location))
    finished := server.finished.map (setLocation handle location) }

variable {queue : List HttpObject} {path : CStr} {i : ℕ} {threshold : UInt32}

theorem isObjectInQueue_iff : isObjectInQueue path queue = true ↔ path ∈ queue.map HttpObject.path := by
  induction queue with
  | nil => simp [isObjectInQueue]
  | cons object queue ih =>
    rw [isObjectInQueue, map_cons, mem_cons]
    split_ifs with h
    · simp [h]
    · simp [h, ih]

theorem addObjectToQueue_eq (object : HttpObject) (queue : List HttpObject) :
    addObjectToQueue object queue = queue ++ [object] := by
  induction queue with
  | nil => rfl
  | cons first queue ih => simp [addObjectToQueue, ih]

theorem popObjectFromQueue_none {rest : List HttpObject} (h : popObjectFromQueue path queue = (rest, none)) :
    rest = queue ∧ path ∉ queue.map HttpObject.path := by
  induction queue generalizing rest with
  | nil =>
    obtain ⟨rfl, -⟩ := Prod.mk.inj h
    simp
  | cons object queue ih =>
    rw [popObjectFromQueue] at h
    split_ifs at h with hpath
    · simp at h
    · obtain ⟨rfl, hnone⟩ := Prod.mk.inj h
      obtain ⟨hrest, hmem⟩ := ih (Prod.ext rfl hnone)
      exact ⟨congrArg _ hrest, by simp [hpath, hmem]⟩

theorem popObjectFromQueue_some {rest : List HttpObject} {object : HttpObject}
    (h : popObjectFromQueue path queue = (rest, some object)) :
    object.path = path ∧ queue.Perm (object :: rest) := by
  induction queue generalizing rest with
  | nil => simp [popObjectFromQueue] at h
  | cons first queue ih =>
    rw [popObjectFromQueue] at h
    split_ifs at h with hpath
    · obtain ⟨rfl, hfirst⟩ := Prod.mk.inj h
      cases hfirst
      exact ⟨hpath.symm, .refl _⟩
    · obtain ⟨rfl, hsome⟩ := Prod.mk.inj h
      obtain ⟨hobject, hperm⟩ := ih (Prod.ext rfl hsome)
      exact ⟨hobject, (hperm.cons first).trans (.swap _ _ _)⟩

theorem createObject_eq {host : CStr} (parse : Bool)
    (howner : ∀ object ∈ queue, object.serverName = host) : createObject host path parse queue =
      if path ∈ queue.map HttpObject.path then queue
      else queue ++ [newObject host path parse] := by
  induction queue with
  | nil => rfl
  | cons object queue ih =>
    have hobject := howner object (by simp)
    rw [createObject, ih fun o ho => howner o (by simp [ho])]
    by_cases hpath : object.path = path
    · simp [hobject, hpath]
    · have hpath' : path ≠ object.path := fun h => hpath h.symm
      by_cases hmem : path ∈ queue.map HttpObject.path <;> simp [hobject, hpath, hpath', hmem]

variable {pipelines : List (List HttpObject)}

theorem flatten_modify_perm (hi : i < pipelines.length) (object : HttpObject) :
    (pipelines.modify i (addObjectToQueue object)).flatten.Perm (object :: pipelines.flatten) := by
  induction pipelines generalizing i with
  | nil => simp at hi
  | cons pipeline pipelines ih =>
    cases i with
    | zero =>
      simp only [modify_zero_cons, flatten_cons, addObjectToQueue_eq, append_assoc]
      exact perm_middle
    | succ i =>
      simp only [modify_succ_cons, flatten_cons]
      exact ((ih (Nat.lt_of_succ_lt_succ hi)).append_left pipeline).trans perm_middle

theorem popFromPipelines_some {j : ℕ} {rest : List (List HttpObject)} {object : HttpObject}
    (h : popFromPipelines path i pipelines = (rest, some (object, j))) :
    object.path = path ∧ pipelines.flatten.Perm (object :: rest.flatten) := by
  induction pipelines generalizing i rest with
  | nil => simp [popFromPipelines] at h
  | cons pipeline pipelines ih =>
    rw [popFromPipelines] at h
    split at h
    next pipeline' object' hpop =>
      cases h
      obtain ⟨hpath, hperm⟩ := popObjectFromQueue_some hpop
      exact ⟨hpath, hperm.append_right _⟩
    next pipeline' hpop =>
      obtain ⟨rfl, hsome⟩ := Prod.mk.inj h
      obtain ⟨rfl, -⟩ := popObjectFromQueue_none hpop
      obtain ⟨hpath, hperm⟩ := ih (Prod.ext rfl hsome)
      exact ⟨hpath, (hperm.append_left _).trans perm_middle⟩

theorem popFromPipelines_length (path : CStr) (i : ℕ) (pipelines : List (List HttpObject)) :
    (popFromPipelines path i pipelines).1.length = pipelines.length := by
  induction pipelines generalizing i with
  | nil => rfl
  | cons pipeline pipelines ih =>
    rw [popFromPipelines]
    split
    · rfl
    · simp [ih]

theorem popFromPipelines_exists (h : path ∈ pipelines.flatten.map HttpObject.path) (i : ℕ) :
    ∃ rest object j, popFromPipelines path i pipelines = (rest, some (object, j)) := by
  induction pipelines generalizing i with
  | nil => simp at h
  | cons pipeline pipelines ih =>
    rw [popFromPipelines]
    split
    next => exact ⟨_, _, _, rfl⟩
    next hpop =>
      obtain ⟨-, hmem⟩ := popObjectFromQueue_none hpop
      rw [flatten_cons, map_append, mem_append] at h
      obtain ⟨rest, object, j, hrest⟩ := ih (h.resolve_left hmem) (i + 1)
      exact ⟨_, object, j, by rw [hrest]⟩

theorem scanPipelines_index {maxrequests : UInt32} {j : ℕ} {size : UInt32} {smallest : Option ℕ}
    (h : (scanPipelines threshold maxrequests i size smallest pipelines).2 = some j) :
    smallest = some j ∨ i ≤ j ∧ j < i + pipelines.length := by
  induction pipelines generalizing i size smallest with
  | nil =>
    rw [scanPipelines] at h
    dsimp only at h
    split_ifs at h
    exact Or.inl h
  | cons pipeline pipelines ih =>
    rw [scanPipelines] at h
    dsimp only at h
    split_ifs at h with hroom hsmall
    · cases h
      exact Or.inr (by simp)
    · rcases ih h with hj | hj
      · cases hj
        exact Or.inr (by simp)
      · exact Or.inr (by simp; omega)
    · rcases ih h with hj | hj
      · exact Or.inl hj
      · exact Or.inr (by simp; omega)

theorem selectPipeline_some {server server' : Server} {r : Option ℕ} (h : selectPipeline threshold server = some (server', r)) :
    (∃ pipelen, server' = { server with pipelen := pipelen }) ∧ ∀ i ∈ r, i < server.pipelines.length := by
  rw [selectPipeline] at h
  split_ifs at h with hfirst
  · split at h
    · cases h
    next first rest hpipelines =>
      cases h
      refine ⟨⟨server.pipelen, rfl⟩, fun i hi => ?_⟩
      split_ifs at hi
      · cases hi
        simp [hpipelines]
      · cases hi
  · cases h
    refine ⟨⟨_, rfl⟩, fun i hi => ?_⟩
    rcases scanPipelines_index hi with hnone | hlt
    · cases hnone
    · simpa using hlt.2

end Amplet.HttpObjects
