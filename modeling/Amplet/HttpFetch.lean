import Amplet.HttpBookkeeping

/-!
# Fetching a page

Embedding of `fetch` and `check_messages` in `src/tests/http/http.c`. What libcurl does
inside `curl_multi_perform` is a sequence of events: headers and page content are handed
to the callbacks, and transfers completed in any order. `running_handles` is the number
of transfers that are left, and every completed one is reported by one message.
-/

namespace Amplet.HttpFetch
open List Bytes HttpUrl HttpObjects HttpBookkeeping

/-- `unreachable` stands for the four codes of a name that does not resolve or a connection that
fails. -/
inductive Outcome
  | ok
  | unreachable
  | failed
deriving DecidableEq, Repr

/-- `memory` lies behind the path buffer while the message is handled. -/
structure Message where
  object : HttpObject
  outcome : Outcome
  code : ℤ
  memory : CStr
deriving DecidableEq, Repr

structure Fetch where
  state : State
  running : List HttpObject
  messages : List Message
deriving DecidableEq, Repr

def startObject (opts : Options) (f : Fetch) (name : Option CStr) : Option (Fetch × ℕ) :=
  match nextObject opts f.state name with
  | none => none
  | some (s, object) =>
    some ({ f with state := s, running := f.running ++ object.toList }, object.toList.length)

def startAll (opts : Options) : List CStr → Fetch → Option Fetch
  | [], f => some f
  | name :: names, f =>
    match startObject opts f (some name) with
    | none => none
    | some (f, _) => startAll opts names f

inductive CurlEvent (opts : Options) : Fetch → Fetch → Prop
  | found (f : Fetch) {memory url : CStr} {s : State} {r : Option CStr}
      (h : addObject opts memory f.state url false = some (s, r)) :
      CurlEvent opts f { f with state := s }
  | status (f : Fetch) {server : Server} (hserver : server ∈ f.state.servers) (http11 : Bool) :
      CurlEvent opts f { f with state := { f.state with
        servers := updateServer server.name (statusLine opts http11) f.state.servers } }
  | location (f : Fetch) (handle : ℕ) (location : CStr) :
      CurlEvent opts f { f with state := { f.state with
        servers := f.state.servers.map (locationHeader handle location) } }
  | completed (s : State) (before after : List HttpObject) (messages : List Message)
      (m : Message) :
      CurlEvent opts ⟨s, before ++ m.object :: after, messages⟩ ⟨s, before ++ after, messages ++ [m]⟩

def isRedirect (code : ℤ) : Bool :=
  code = 301 || code = 302 || code = 303 || code = 307 || code = 308

def followRedirect (opts : Options) (memory : CStr) (s : State) (object : HttpObject)
    (redirect : Option CStr) : Option (State × Option CStr) :=
  match object.location with
  | none => some (s, redirect)
  | some location =>
    if isRedirect object.code then addObject opts memory s location object.parse
    else some (s, redirect)

/-- One turn of `check_messages`, with `redirect` and the number of transfers that were started.
-/
def handleMessage (opts : Options) (f : Fetch) (redirect : Option CStr) (m : Message) : Option (Fetch × Option CStr × ℕ) :=
  match saveStats m.memory f.state m.object.url m.code with
  | none => none
  | some (s, object) =>
    match splitUrl m.memory s.base m.object.url false with
    | none => none
    | some split =>
      match followRedirect opts m.memory s object redirect with
      | none => none
      | some (s, redirect) =>
        match startObject opts { f with state := s } (if redirect = some split.server then none else redirect) with
        | none => none
        | some (f, n) =>
          match startObject opts f (some split.server) with
          | none => none
          | some (f, k) => some (f, redirect, n + k)

def firstHost (s : State) : Bool :=
  match s.servers with
  | [server] => server.finished.isEmpty
  | _ => false

def checkMessages (opts : Options) : List Message → Fetch → Option CStr → ℕ → Option (Fetch × ℕ)
  | [], f, _, n => some (f, n)
  | m :: ms, f, redirect, n =>
    if m.outcome = .unreachable ∧ firstHost f.state then some ({ f with messages := ms }, n)
    else
      match handleMessage opts { f with messages := ms } redirect m with
      | none => none
      | some (f, redirect, k) => checkMessages opts ms f redirect (n + k)

structure Pass (opts : Options) (f g f' : Fetch) (n : ℕ) : Prop where
  curl : ∃ f₁, startAll opts (f.state.servers.map Server.name) f = some f₁ ∧ Relation.ReflTransGen (CurlEvent opts) f₁ g
  check : checkMessages opts g.messages g none g.running.length = some (f', n)

inductive Fetching (opts : Options) : Fetch → Prop
  | start {memory memory' optarg url : CStr} {split : Split} {s : State} {r : Option CStr}
      (hoption : splitUrl memory none optarg true = some split)
      (hadd : addObject opts memory' ⟨[], split.base, 0⟩ url true = some (s, r)) :
      Fetching opts ⟨s, [], []⟩
  | pass {f g f' : Fetch} {n : ℕ} (hf : Fetching opts f) (hpass : Pass opts f g f' n)
      (hrunning : n ≠ 0) : Fetching opts f'

structure Usable (opts : Options) : Prop where
  pipelines : opts.totalPipelines ≠ 0
  requests : opts.pipelining = true → opts.pipeliningMaxrequests ≠ 0 ∧
    (opts.pipeSizeBeforeSkip ≠ 0 ∨ opts.pipeliningMaxrequests + 1 ≠ 0)

structure ServerReady (opts : Options) (server : Server) : Prop where
  room : server.pipeliningMaxrequests ≠ 0 ∧ (opts.pipeSizeBeforeSkip ≠ 0 ∨ server.pipeliningMaxrequests + 1 ≠ 0)
  pipelines : server.pipelines ≠ []
  single : server.finished = [] → server.objects = 0 ∧
    ∃ first rest, server.pipelines = first :: rest ∧ first.length ≤ 1 ∧ rest.flatten = []

variable {opts : Options}

theorem createServer_ready (hopts : Usable opts) (name : CStr) : ServerReady opts (createServer opts name) := by
  obtain ⟨n, hn⟩ := Nat.exists_eq_succ_of_ne_zero hopts.pipelines
  have hpipelines : (createServer opts name).pipelines = [] :: replicate n [] := by
    simp only [createServer, hn, replicate_succ]
  refine ⟨⟨?_, Or.inr ?_⟩, by rw [hpipelines]; simp, fun _ => ⟨rfl, [], _, hpipelines, ?_⟩⟩
  · simp [createServer]
  · simp only [createServer]
    decide
  · simp

variable {server : Server}

theorem enqueueObject_ready (h : ServerReady opts server) (host path : CStr) (parse : Bool) :
    ServerReady opts (enqueueObject host path parse server) := by
  rw [enqueueObject]
  split_ifs
  · exact h
  · exact h
  · exact ⟨h.room, h.pipelines, h.single⟩

theorem statusLine_ready (hopts : Usable opts) (h : ServerReady opts server) (http11 : Bool) :
    ServerReady opts (statusLine opts http11 server) := by
  rw [statusLine]
  split
  next hpipelining =>
    refine ⟨?_, h.pipelines, h.single⟩
    cases http11
    · exact ⟨by simp, Or.inr (by simp only [Bool.false_eq_true, if_false]; decide)⟩
    · exact hopts.requests hpipelining
  · exact h

theorem locationHeader_ready (h : ServerReady opts server) (handle : ℕ) (location : CStr) :
    ServerReady opts (locationHeader handle location server) := by
  refine ⟨h.room, by simpa [locationHeader] using h.pipelines, fun hfinished => ?_⟩
  obtain ⟨hobjects, first, rest, hpipelines, hfirst, hrest⟩ :=
    h.single (by simpa [locationHeader] using hfinished)
  refine ⟨hobjects, first.map (setLocation handle location),
    rest.map (map (setLocation handle location)), ?_, by simpa using hfirst, ?_⟩
  · simp [locationHeader, hpipelines]
  · rw [← map_flatten, hrest]
    rfl

theorem finished_ready {server' : Server} {object : HttpObject} (h : ServerReady opts server)
    (hfinished : Finished server server' object) :
    ServerReady opts server' := by
  refine ⟨by rw [hfinished.maxrequests]; exact h.room, ?_, fun hnil => ?_⟩
  · intro hnil
    have hlength := hfinished.length
    rw [hnil] at hlength
    exact h.pipelines (eq_nil_of_length_eq_zero hlength.symm)
  · simp [hfinished.finished] at hnil

theorem pipelineNextObject_ready {handle : ℕ} {server' : Server} {object : Option HttpObject} (h : ServerReady opts server)
    (hnext : pipelineNextObject opts handle server = some (server', object)) :
    ServerReady opts server' := by
  rw [pipelineNextObject] at hnext
  split at hnext
  · simp only [Option.some.injEq, Prod.mk.injEq] at hnext
    rwa [← hnext.1]
  next first pending hpending =>
    split at hnext
    · cases hnext
    next hselect =>
      obtain ⟨⟨pipelen, rfl⟩, -⟩ := selectPipeline_some hselect
      simp only [Option.some.injEq, Prod.mk.injEq] at hnext
      rw [← hnext.1]
      exact ⟨h.room, h.pipelines, h.single⟩
    next i hselect =>
      have hfirst : server.objects = 0 → ∀ p ps, server.pipelines = p :: ps → p = [] ∧ i = 0 := by
        intro hobjects p ps hpipelines
        simp only [selectPipeline, hobjects, hpipelines] at hselect
        simp only [show (0 : UInt32) < 1 from by decide, if_true, Option.some.injEq, Prod.mk.injEq] at hselect
        split_ifs at hselect with hp
        · exact ⟨hp, (Option.some.inj hselect.2).symm⟩
        · cases hselect.2
      obtain ⟨⟨pipelen, rfl⟩, -⟩ := selectPipeline_some hselect
      simp only [Option.some.injEq, Prod.mk.injEq] at hnext
      rw [← hnext.1]
      refine ⟨h.room, by simpa using h.pipelines, fun hfinished => ?_⟩
      obtain ⟨hobjects, p, ps, hpipelines, -, hps⟩ := h.single hfinished
      obtain ⟨rfl, rfl⟩ := hfirst hobjects p ps hpipelines
      exact ⟨hobjects, _, ps, by simp only [hpipelines, modify_zero_cons]; rfl, by simp [addObjectToQueue], hps⟩

theorem scanPipelines_isSome {threshold maxrequests : UInt32} (hmax : maxrequests ≠ 0) (i j : ℕ)
    (pipelines : List (List HttpObject)) :
    ((scanPipelines threshold maxrequests i 0 (some j) pipelines).2).isSome := by
  induction pipelines generalizing i with
  | nil => simp [scanPipelines, UInt32.pos_iff_ne_zero.mpr hmax]
  | cons pipeline pipelines ih =>
    rw [scanPipelines]
    dsimp only
    split_ifs with hroom hsmall
    · rfl
    · exact absurd hsmall (by simp)
    · exact ih (i + 1)

theorem pipelineNextObject_idle {server' : Server} {object : Option HttpObject} {handle : ℕ}
    (h : ServerReady opts server) (hpending : server.pending ≠ [])
    (hidle : server.pipelines.flatten = [])
    (hnext : pipelineNextObject opts handle server = some (server', object)) : object ≠ none := by
  obtain ⟨first, pending, hfirst⟩ := exists_cons_of_ne_nil hpending
  obtain ⟨pipeline, pipelines, hpipelines⟩ := exists_cons_of_ne_nil h.pipelines
  have hempty : pipeline = [] := by
    rw [hpipelines, flatten_cons, append_eq_nil_iff] at hidle
    exact hidle.1
  have hselect : ∃ t i, selectPipeline opts.pipeSizeBeforeSkip server = some (t, some i) := by
    rw [selectPipeline]
    split_ifs with hobjects
    · rw [hpipelines, hempty]
      exact ⟨server, 0, rfl⟩
    · obtain ⟨hmax, hsize⟩ := h.room
      have hscan : ((scanPipelines opts.pipeSizeBeforeSkip server.pipeliningMaxrequests 0
          (server.pipeliningMaxrequests + 1) none server.pipelines).2).isSome := by
        rw [hpipelines, hempty, scanPipelines]
        dsimp only
        have hlen : UInt32.ofNat ([] : List HttpObject).length = 0 := rfl
        rw [hlen]
        split_ifs with hroom hsmall
        · rfl
        · exact scanPipelines_isSome hmax _ _ _
        · have hthreshold : opts.pipeSizeBeforeSkip ≠ 0 :=
            hsize.resolve_right fun hne => hsmall (UInt32.pos_iff_ne_zero.mpr hne)
          exact absurd ⟨UInt32.pos_iff_ne_zero.mpr hthreshold, UInt32.pos_iff_ne_zero.mpr hmax⟩ hroom
      obtain ⟨i, hi⟩ := Option.isSome_iff_exists.mp hscan
      exact ⟨_, i, by dsimp only; rw [hi]⟩
  obtain ⟨t, i, hselect⟩ := hselect
  rw [pipelineNextObject, hfirst] at hnext
  dsimp only at hnext
  rw [hselect] at hnext
  simp only [Option.some.injEq, Prod.mk.injEq] at hnext
  rw [← hnext.2]
  simp

def flying (servers : List Server) : List (CStr × CStr) :=
  servers.flatMap fun server => server.pipelines.flatten.map key

def waiting (servers : List Server) : List HttpObject := servers.flatMap Server.pending

def fetched (servers : List Server) : List HttpObject := servers.flatMap Server.finished

abbrev AnyRun (opts : Options) : State → State → Prop := Run opts fun _ _ => True

/-- The objects that curl was given and that were not read back from it are
those in the pipelines. -/
structure FetchValid (opts : Options) (f : Fetch) : Prop where
  run : AnyRun opts HttpBookkeeping.start f.state
  ready : ∀ server ∈ f.state.servers, ServerReady opts server
  tracked : (flying f.state.servers).Perm ((f.running ++ f.messages.map Message.object).map key)
  url : ∀ object ∈ f.running ++ f.messages.map Message.object, object.url = object.serverName ++ object.path

variable {s : State} {f' : Fetch} {n : ℕ}

section Valid

variable {opts : Options} {f : Fetch}

theorem FetchValid.state (h : FetchValid opts f) : StateValid f.state := run_valid h.run start_valid

theorem mem_getServer {name : CStr} {servers : List Server} {t : Server}
    (ht : t ∈ getServer opts name servers) : t ∈ servers ∨ t = createServer opts name := by
  rw [getServer_eq] at ht
  split_ifs at ht
  · exact Or.inl ht
  · exact (mem_append.mp ht).imp_right mem_singleton.mp

theorem getServer_flatMap {α : Type} {g : Server → List α} {name : CStr} (servers : List Server)
    (hg : g (createServer opts name) = []) :
    (getServer opts name servers).flatMap g = servers.flatMap g := by
  rw [getServer_eq]
  split_ifs
  · rfl
  · simp [hg]

structure Enqueued (server server' : Server) : Prop where
  name : server'.name = server.name
  pipelines : server'.pipelines = server.pipelines
  finished : server'.finished = server.finished
  pending : ∃ added, server'.pending.Perm (added ++ server.pending)

theorem enqueued_enqueueObject (hvalid : ServerValid server) (path : CStr) (parse : Bool) :
    Enqueued server (enqueueObject server.name path parse server) := by
  rw [enqueueObject_eq hvalid]
  split_ifs
  · exact ⟨rfl, rfl, rfl, [], .refl _⟩
  · exact ⟨rfl, rfl, rfl, _, perm_append_comm⟩

structure Added (servers servers' : List Server) (r : Option CStr) : Prop where
  waiting : ∃ added, (waiting servers').Perm (added ++ waiting servers)
  fetched : (fetched servers').Perm (fetched servers)
  frame : ∀ server ∈ servers', server ∈ servers ∨ r = some server.name

theorem Added.refl (servers : List Server) (r : Option CStr) : Added servers servers r :=
  ⟨⟨[], .refl _⟩, .refl _, fun _ hserver => Or.inl hserver⟩

theorem FetchValid.add (hopts : Usable opts) (h : FetchValid opts f) {memory url : CStr}
    {parse : Bool} {r : Option CStr}
    (hadd : addObject opts memory f.state url parse = some (s, r)) :
    FetchValid opts { f with state := s } ∧ Added f.state.servers s.servers r := by
  have hrun := h.run.tail (.add trivial hadd)
  obtain ⟨rfl, rfl⟩ | ⟨split, hsplit, rfl, rfl⟩ := addObject_cases hadd
  · exact ⟨h, .refl _ _⟩
  · obtain ⟨hserver, -⟩ := splitUrl_valid hsplit h.state.base
    obtain ⟨-, hservers, -, server, hfind⟩ := getServer_spec opts h.state hserver
    obtain ⟨hmem, hname⟩ := findServer_some hfind
    have henqueued := enqueued_enqueueObject (hservers server hmem) split.path parse
    rw [hname] at henqueued
    have hready : ∀ t ∈ getServer opts split.server f.state.servers, ServerReady opts t := by
      intro t ht
      rcases mem_getServer ht with ht | rfl
      · exact h.ready t ht
      · exact createServer_ready hopts split.server
    refine ⟨⟨hrun, updateServer_forall hready hfind (enqueueObject_ready (hready server hmem) _ _ _), ?_, h.url⟩, ⟨?_, ?_, ?_⟩⟩
    · have hflying : (flying (updateServer split.server (enqueueObject split.server split.path parse)
          (getServer opts split.server f.state.servers))).Perm
          (flying (getServer opts split.server f.state.servers)) :=
        updateServer_flatMap [] [] hfind (by rw [henqueued.pipelines])
      rw [flying, flying, getServer_flatMap _ (by simp [createServer])] at hflying
      exact hflying.trans h.tracked
    · obtain ⟨added, hadded⟩ := henqueued.pending
      refine ⟨added, ?_⟩
      have hwaiting := updateServer_flatMap (f := enqueueObject split.server split.path parse)
        (g := Server.pending) [] added hfind hadded
      rw [getServer_flatMap _ rfl] at hwaiting
      exact hwaiting
    · have hdone := updateServer_flatMap (f := enqueueObject split.server split.path parse)
        (g := Server.finished) [] [] hfind (by rw [henqueued.finished])
      rw [getServer_flatMap _ rfl] at hdone
      exact hdone
    · refine updateServer_forall (fun t ht => ?_) hfind (Or.inr ?_)
      · rcases mem_getServer ht with ht | rfl
        · exact Or.inl ht
        · exact Or.inr (congrArg some (server_take hserver).symm)
      · rw [henqueued.name, hname]

theorem FetchValid.start (h : FetchValid opts f) {name : Option CStr} (hstart : startObject opts f name = some (f', n)) :
    FetchValid opts f' ∧ f'.messages = f.messages ∧ f'.running.length = f.running.length + n ∧
      (fetched f'.state.servers).Perm (fetched f.state.servers) ∧
      (n = 0 → (waiting f'.state.servers).Perm (waiting f.state.servers) ∧
        ∀ t' ∈ f'.state.servers, ∃ t ∈ f.state.servers, t'.name = t.name ∧
          t'.pending = t.pending ∧ t'.pipelines.flatten.Perm t.pipelines.flatten ∧
          (name = some t.name → t.pending ≠ [] → t.pipelines.flatten ≠ [])) := by
  rw [startObject] at hstart
  split at hstart
  · cases hstart
  next s object hnext =>
    cases hstart
    have hrun := h.run.tail (.next hnext)
    obtain ⟨-, -, -, ⟨rfl, rfl, hnone⟩ | ⟨server, server', hserver, rfl, hpipe, hstarted, hs⟩⟩ :=
      nextObject_spec h.state hnext
    · refine ⟨⟨hrun, h.ready, by simpa using h.tracked, by simpa using h.url⟩, rfl, by simp, .refl _, fun _ => ⟨.refl _, ?_⟩⟩
      intro t ht
      exact ⟨t, ht, rfl, rfl, .refl _, fun heq => absurd heq (hnone t ht)⟩
    · have hfind := findServer_of_mem h.state.names hserver
      have hflying : (flying s.servers).Perm (object.toList.map key ++ flying f.state.servers) := by
        rw [hs]
        refine updateServer_flatMap [] _ hfind ?_
        rw [nil_append, ← map_append]
        exact hstarted.pipelines.map key
      have howner : ∀ o ∈ object, o.url = o.serverName ++ o.path := by
        intro o ho
        have hin : o ∈ server'.pipelines.flatten :=
          hstarted.pipelines.mem_iff.mpr (by simp [Option.mem_def.mp ho])
        rw [(hstarted.fetched o ho).1, hstarted.valid.owner o (mem_queues.mpr (Or.inr (Or.inr hin))), hstarted.name]
      refine ⟨⟨hrun, ?_, ?_, ?_⟩, rfl, by simp, ?_, ?_⟩
      · rw [hs]
        exact updateServer_forall h.ready hfind (pipelineNextObject_ready (h.ready server hserver) hpipe)
      · refine hflying.trans ((h.tracked.append_left _).trans ?_)
        rw [← map_append]
        refine Perm.map key ?_
        rw [← append_assoc]
        exact perm_append_comm.append_right _
      · intro o ho
        simp only [append_assoc, mem_append] at ho
        rcases ho with ho | ho | ho
        · exact h.url o (mem_append_left _ ho)
        · exact howner o (Option.mem_toList.mp ho)
        · exact h.url o (mem_append_right _ ho)
      · rw [hs]
        exact updateServer_flatMap [] [] hfind (by rw [hstarted.finished])
      · intro hzero
        have hobject : object = none := by
          cases object with
          | none => rfl
          | some o => simp at hzero
        subst hobject
        rw [hs]
        refine ⟨updateServer_flatMap [] [] hfind (by rw [hstarted.pending]; exact .refl _),
          updateServer_forall (fun t ht => ?_) hfind ?_⟩
        · refine ⟨t, ht, rfl, rfl, .refl _, fun heq hpending hidle => ?_⟩
          have hsame := findServer_of_mem h.state.names ht
          rw [← Option.some.inj heq, hfind] at hsame
          cases hsame
          exact pipelineNextObject_idle (h.ready server hserver) hpending hidle hpipe rfl
        · exact ⟨server, hserver, hstarted.name, hstarted.pending, hstarted.pipelines,
            fun _ hpending hidle => pipelineNextObject_idle (h.ready server hserver) hpending hidle hpipe rfl⟩

variable {m : Message} {ms : List Message}

theorem FetchValid.message (h : FetchValid opts f) (hm : f.messages = m :: ms) :
    ∃ server ∈ f.state.servers, ∃ object ∈ server.pipelines.flatten,
      server.name = m.object.serverName ∧ object.path = m.object.path ∧ object.url = m.object.url := by
  have hkey : key m.object ∈ flying f.state.servers := by
    refine h.tracked.mem_iff.mpr (mem_map_of_mem (mem_append_right _ ?_))
    simp [hm]
  obtain ⟨server, hserver, hobject⟩ := mem_flatMap.mp hkey
  obtain ⟨object, hobject, heq⟩ := mem_map.mp hobject
  obtain ⟨hname, hpath⟩ := Prod.mk.inj heq
  have hvalid := h.state.servers server hserver
  have howner := hvalid.owner object (mem_queues.mpr (Or.inr (Or.inr hobject)))
  refine ⟨server, hserver, object, hobject, by rw [← howner, hname], hpath, ?_⟩
  rw [hvalid.url object hobject, h.url m.object (mem_append_right _ (by simp [hm])), ← howner, hname, hpath]

theorem FetchValid.save (h : FetchValid opts f) (hm : f.messages = m :: ms) {saved : HttpObject}
    (hsave : saveStats m.memory f.state m.object.url m.code = some (s, saved)) :
    FetchValid opts ⟨s, f.running, ms⟩ ∧ (∃ split, splitUrl m.memory s.base m.object.url false = some split ∧
        split.server = m.object.serverName) ∧
      (waiting s.servers).Perm (waiting f.state.servers) ∧
      (fetched s.servers).Perm (saved :: fetched f.state.servers) ∧
      ∀ t' ∈ s.servers, ∃ t ∈ f.state.servers, t'.name = t.name ∧ t'.pending = t.pending := by
  obtain ⟨server, hserver, object, hobject, hname, hpath, hurl⟩ := h.message hm
  rw [← hurl] at hsave ⊢
  obtain ⟨-, -, hbase, -, hsaved, -, server', hfinished, hs⟩ :=
    saveStats_spec h.state hserver hobject hsave
  have hserverValid := h.state.servers server hserver
  have hqueue : object ∈ (queues server).flatten := mem_queues.mpr (Or.inr (Or.inr hobject))
  have hfind := findServer_of_mem h.state.names hserver
  obtain ⟨popped, hpopped, -, -, hperm⟩ := hfinished.pipelines
  have hkey : key popped = key m.object := by
    have howner := hserverValid.owner popped (mem_queues.mpr (Or.inr (Or.inr (hperm.mem_iff.mpr (by simp)))))
    exact Prod.ext (howner.trans hname) (hpopped.trans (hsaved.trans hpath))
  refine ⟨⟨h.run.tail (.save hserver hobject hsave), ?_, ?_, ?_⟩, ⟨⟨server.name, object.path, s.base⟩, ?_, hname⟩, ?_, ?_, ?_⟩
  · rw [hs]
    exact updateServer_forall h.ready hfind (finished_ready (h.ready server hserver) hfinished)
  · have hlost : ([key m.object] ++ flying s.servers).Perm ([] ++ flying f.state.servers) := by
      rw [hs]
      refine updateServer_flatMap _ _ hfind ?_
      have hkeys := hperm.map key
      rw [map_cons, hkey] at hkeys
      exact hkeys.symm
    have htracked := hlost.trans h.tracked
    rw [hm, map_append, map_cons, map_cons] at htracked
    rw [map_append]
    exact (htracked.trans perm_middle).cons_inv
  · intro o ho
    refine h.url o ?_
    simp only [hm, map_cons, mem_append, mem_cons] at ho ⊢
    tauto
  · rw [hserverValid.url object hobject]
    exact splitUrl_append hserverValid.named (hserverValid.path object hqueue) m.memory
      (by rw [hbase]; exact h.state.started (ne_nil_of_mem hserver))
  · rw [hs]
    exact updateServer_flatMap [] [] hfind (by rw [hfinished.pending])
  · rw [hs]
    refine updateServer_flatMap [] [saved] hfind ?_
    rw [hfinished.finished, nil_append]
    exact perm_append_comm
  · rw [hs]
    refine updateServer_forall (fun t ht => ⟨t, ht, rfl, rfl⟩) hfind ?_
    exact ⟨server, hserver, hfinished.name, hfinished.pending⟩

variable {redirect' : Option CStr}

theorem FetchValid.redirect (hopts : Usable opts) (h : FetchValid opts f) {memory : CStr}
    {object : HttpObject} {redirect : Option CStr}
    (hfollow : followRedirect opts memory f.state object redirect = some (s, redirect')) :
    FetchValid opts { f with state := s } ∧ Added f.state.servers s.servers redirect' := by
  rw [followRedirect] at hfollow
  split at hfollow
  · cases hfollow
    exact ⟨h, .refl _ _⟩
  · split_ifs at hfollow
    · exact h.add hopts hfollow
    · cases hfollow
      exact ⟨h, .refl _ _⟩

theorem handleMessage_cases {redirect : Option CStr} (h : handleMessage opts f redirect m = some (f', redirect', n)) :
    ∃ s₁ saved split s₂ f₃ a b, saveStats m.memory f.state m.object.url m.code = some (s₁, saved) ∧
      splitUrl m.memory s₁.base m.object.url false = some split ∧
      followRedirect opts m.memory s₁ saved redirect = some (s₂, redirect') ∧
      startObject opts { f with state := s₂ } (if redirect' = some split.server then none else redirect') = some (f₃, a) ∧
      startObject opts f₃ (some split.server) = some (f', b) ∧ n = a + b := by
  rw [handleMessage] at h
  split at h
  · cases h
  next s₁ saved hsave =>
    split at h
    · cases h
    next split hsplit =>
      split at h
      · cases h
      next s₂ redirect₂ hfollow =>
        split at h
        · cases h
        next f₃ a hstart₃ =>
          split at h
          · cases h
          next f₄ b hstart₄ =>
            cases h
            exact ⟨s₁, saved, split, s₂, f₃, a, b, hsave, hsplit, hfollow, hstart₃, hstart₄, rfl⟩

theorem FetchValid.handle (hopts : Usable opts) (h : FetchValid opts { f with messages := m :: ms })
    {redirect : Option CStr}
    (hhandle : handleMessage opts { f with messages := ms } redirect m = some (f', redirect', n)) :
    FetchValid opts f' ∧ f'.messages = ms ∧ f'.running.length = f.running.length + n ∧ fetched f'.state.servers ≠ [] ∧
      (n = 0 → (∃ added, (waiting f'.state.servers).Perm (added ++ waiting f.state.servers)) ∧
        ∀ t' ∈ f'.state.servers, t'.pending ≠ [] → t'.pipelines.flatten ≠ [] ∨ t'.name ≠ m.object.serverName ∧
            ∃ t ∈ f.state.servers, t'.name = t.name ∧ t.pending ≠ []) := by
  obtain ⟨s₁, saved, split, s₂, f₃, a, b, hsave, hsplit, hfollow, hstart₃, hstart₄, rfl⟩ :=
    handleMessage_cases hhandle
  obtain ⟨h₁, ⟨split', hsplit', hserver⟩, hwait₁, hdone₁, hframe₁⟩ := h.save rfl hsave
  obtain rfl := Option.some.inj (hsplit.symm.trans hsplit')
  obtain ⟨h₂, ⟨⟨added, hwait₂⟩, hdone₂, hframe₂⟩⟩ := h₁.redirect hopts hfollow
  obtain ⟨h₃, hms₃, hlen₃, hdone₃, hframe₃⟩ := h₂.start hstart₃
  obtain ⟨h₄, hms₄, hlen₄, hdone₄, hframe₄⟩ := h₃.start hstart₄
  refine ⟨h₄, by rw [hms₄, hms₃], by rw [hlen₄, hlen₃, Nat.add_assoc], ?_, fun hzero => ?_⟩
  · intro hnil
    have hperm := hdone₄.trans (hdone₃.trans (hdone₂.trans hdone₁))
    rw [hnil] at hperm
    simpa using hperm.length_eq
  · obtain ⟨hwait₃, hframe₃⟩ := hframe₃ (by omega)
    obtain ⟨hwait₄, hframe₄⟩ := hframe₄ (by omega)
    refine ⟨⟨added, hwait₄.trans (hwait₃.trans (hwait₂.trans (hwait₁.append_left _)))⟩, ?_⟩
    intro t' ht' hpending
    obtain ⟨t₃, ht₃, hname₃, hpend₃, hpipe₃, hidle₃⟩ := hframe₄ t' ht'
    obtain ⟨t₂, ht₂, hname₂, hpend₂, hpipe₂, hidle₂⟩ := hframe₃ t₃ ht₃
    rw [hpend₃] at hpending
    by_cases hm : t'.name = m.object.serverName
    · left
      intro hnil
      rw [hnil] at hpipe₃
      exact hidle₃ (by rw [hserver, ← hm, hname₃]) hpending hpipe₃.nil_eq.symm
    · rw [hpend₂] at hpending
      by_cases hredirect : redirect' = some t₂.name
      · left
        intro hnil
        rw [hnil] at hpipe₃
        rw [← hpipe₃.nil_eq] at hpipe₂
        have hother : redirect' ≠ some split.server := by
          rw [hredirect, hserver]
          exact fun heq => hm (by rw [hname₃, hname₂, Option.some.inj heq])
        exact hidle₂ (by rw [if_neg hother, hredirect]) hpending hpipe₂.nil_eq.symm
      · right
        obtain ⟨t₁, ht₁, hname₁, hpend₁⟩ :=
          hframe₁ t₂ ((hframe₂ t₂ ht₂).resolve_right hredirect)
        exact ⟨hm, t₁, ht₁, by rw [hname₃, hname₂, hname₁], by rwa [← hpend₁]⟩

theorem FetchValid.pipeline (h : FetchValid opts f) (hserver : server ∈ f.state.servers) (hbusy : server.pipelines.flatten ≠ []) :
    ∃ object ∈ f.running ++ f.messages.map Message.object, object.serverName = server.name := by
  obtain ⟨object, hobject⟩ := exists_mem_of_ne_nil _ hbusy
  have hkey : key object ∈ flying f.state.servers :=
    mem_flatMap.mpr ⟨server, hserver, mem_map_of_mem hobject⟩
  obtain ⟨given, hgiven, heq⟩ := mem_map.mp (h.tracked.mem_iff.mp hkey)
  refine ⟨given, hgiven, (Prod.mk.inj heq).1.trans ?_⟩
  exact (h.state.servers server hserver).owner object (mem_queues.mpr (Or.inr (Or.inr hobject)))

theorem firstHost_fetched (h : firstHost s = true) : fetched s.servers = [] := by
  rw [firstHost] at h
  split at h
  next server hservers => simpa [fetched, hservers] using h
  · cases h

theorem FetchValid.alone (h : FetchValid opts f) (hfirst : firstHost f.state = true) :
    f.running.length + f.messages.length ≤ 1 := by
  rw [firstHost] at hfirst
  split at hfirst
  next server hservers =>
    have hready := h.ready server (by rw [hservers]; exact mem_singleton_self server)
    obtain ⟨-, first, rest, hpipelines, hlength, hrest⟩ :=
      hready.single (List.isEmpty_iff.mp hfirst)
    have hflying := h.tracked.length_eq
    simp only [flying, hservers, flatMap_cons, flatMap_nil, hpipelines,
      flatten_cons, hrest, append_nil, length_map, length_append] at hflying
    omega
  · cases hfirst

theorem FetchValid.check (hopts : Usable opts) {redirect : Option CStr} (h : FetchValid opts f) (hms : f.messages = ms)
    (hgo : ∀ m ∈ ms.head?, ¬(m.outcome = .unreachable ∧ firstHost f.state = true))
    (hcheck : checkMessages opts ms f redirect f.running.length = some (f', n)) :
    FetchValid opts f' ∧ f'.messages = [] ∧ f'.running.length = n ∧ f.running.length ≤ n ∧
      (n = 0 → (∃ added, (waiting f'.state.servers).Perm (added ++ waiting f.state.servers)) ∧
        ∀ t' ∈ f'.state.servers, t'.pending ≠ [] → (∀ m ∈ ms, t'.name ≠ m.object.serverName) ∧
            ∃ t ∈ f.state.servers, t'.name = t.name ∧ t.pending ≠ []) := by
  induction ms generalizing f redirect with
  | nil =>
    simp only [checkMessages, Option.some.injEq, Prod.mk.injEq] at hcheck
    obtain ⟨rfl, rfl⟩ := hcheck
    exact ⟨h, hms, rfl, le_rfl, fun _ => ⟨⟨[], .refl _⟩, fun t ht hpending =>
      ⟨by simp, t, ht, rfl, hpending⟩⟩⟩
  | cons m ms ih =>
    rw [checkMessages, if_neg (hgo m rfl)] at hcheck
    split at hcheck
    · cases hcheck
    next f₁ redirect₁ k hhandle =>
      obtain ⟨h₁, hms₁, hlen₁, hdone₁, hzero₁⟩ :=
        FetchValid.handle hopts (f := f) (by rw [← hms]; exact h) hhandle
      rw [← hlen₁] at hcheck
      have hgo₁ : ∀ m ∈ ms.head?, ¬(m.outcome = .unreachable ∧ firstHost f₁.state = true) :=
        fun _ _ hstop => hdone₁ (firstHost_fetched hstop.2)
      obtain ⟨h', hms', hlen', hle, hzero⟩ := ih h₁ hms₁ hgo₁ hcheck
      refine ⟨h', hms', hlen', by omega, fun hn => ?_⟩
      obtain ⟨⟨added, hwait⟩, hframe⟩ := hzero hn
      obtain ⟨⟨added₁, hwait₁⟩, hframe₁⟩ := hzero₁ (by omega)
      have hidle : f₁.running = [] := eq_nil_of_length_eq_zero (by omega)
      refine ⟨⟨added ++ added₁, ?_⟩, fun t' ht' hpending' => ?_⟩
      · rw [append_assoc]
        exact hwait.trans (hwait₁.append_left _)
      · obtain ⟨hother, t₁, ht₁, hname, hpending₁⟩ := hframe t' ht' hpending'
        -- an object in a pipeline would still have a message, and none is left for this server
        have hempty : ¬t₁.pipelines.flatten ≠ [] := by
          intro hbusy
          obtain ⟨object, hobject, howner⟩ := h₁.pipeline ht₁ hbusy
          rw [hidle, hms₁, nil_append] at hobject
          obtain ⟨m₁, hm₁, rfl⟩ := mem_map.mp hobject
          exact hother m₁ hm₁ (hname.trans howner.symm)
        obtain ⟨hm, t, ht, hname₁, hpending⟩ := (hframe₁ t₁ ht₁ hpending₁).resolve_left hempty
        rw [← hname] at hm hname₁
        exact ⟨forall_mem_cons.mpr ⟨hm, hother⟩, t, ht, hname₁, hpending⟩

theorem FetchValid.startAll (h : FetchValid opts f) {names : List CStr} (hstart : startAll opts names f = some f') :
    FetchValid opts f' ∧ f'.messages = f.messages := by
  induction names generalizing f with
  | nil =>
    cases hstart
    exact ⟨h, rfl⟩
  | cons name names ih =>
    rw [HttpFetch.startAll] at hstart
    split at hstart
    · cases hstart
    next f₁ n hnext =>
      obtain ⟨h₁, hms, -⟩ := h.start hnext
      obtain ⟨h', hms'⟩ := ih h₁ hstart
      exact ⟨h', hms'.trans hms⟩

theorem FetchValid.event (hopts : Usable opts) (h : FetchValid opts f) (hevent : CurlEvent opts f f') : FetchValid opts f' := by
  cases hevent with
  | found _ hadd => exact (h.add hopts hadd).1
  | @status _ server hserver http11 =>
    have hfind := findServer_of_mem h.state.names hserver
    have hpipelines : (statusLine opts http11 server).pipelines = server.pipelines := by
      rw [statusLine]
      split_ifs <;> rfl
    refine ⟨h.run.tail (.status hserver http11), updateServer_forall h.ready hfind
      (statusLine_ready hopts (h.ready server hserver) http11), ?_, h.url⟩
    exact (updateServer_flatMap [] [] hfind (by rw [hpipelines])).trans h.tracked
  | location _ handle location =>
    refine ⟨h.run.tail (.location _ handle location), ?_, ?_, h.url⟩
    · intro server hserver
      obtain ⟨server, hmem, rfl⟩ := mem_map.mp hserver
      exact locationHeader_ready (h.ready server hmem) handle location
    · have hsame : flying (f.state.servers.map (locationHeader handle location)) = flying f.state.servers := by
        rw [flying, flying, flatMap_map]
        congr 1
        funext server
        simp only [locationHeader, ← map_flatten, map_map]
        congr 1
        funext object
        simp only [Function.comp, setLocation]
        split_ifs <;> rfl
      exact hsame ▸ h.tracked
  | completed s before after messages m =>
    have hperm : (before ++ m.object :: after ++ messages.map Message.object).Perm
        (before ++ after ++ (messages ++ [m]).map Message.object) := by
      rw [map_append, ← append_assoc]
      refine (perm_middle.append_right _).trans ?_
      exact (perm_append_singleton _ _).symm
    exact ⟨h.run, h.ready, h.tracked.trans (hperm.map key), fun object hobject => h.url object (hperm.mem_iff.mpr hobject)⟩

theorem FetchValid.events (hopts : Usable opts) (h : FetchValid opts f)
    (hevents : Relation.ReflTransGen (CurlEvent opts) f f') : FetchValid opts f' := by
  induction hevents with
  | refl => exact h
  | tail _ hevent ih => exact ih.event hopts hevent

def Stopped (f : Fetch) : Prop :=
  ∃ m ∈ f.messages.head?, m.outcome = .unreachable ∧ firstHost f.state = true

theorem checkMessages_stopped (h : FetchValid opts f) (hstop : Stopped f) {redirect : Option CStr}
    (hcheck : checkMessages opts f.messages f redirect f.running.length = some (f', n)) :
    n = 0 ∧ f'.state = f.state ∧ ∃ server ∈ f.state.servers, server.pipelines.flatten ≠ [] := by
  obtain ⟨m, hm, hstop⟩ := hstop
  obtain ⟨ms, hms⟩ := head?_eq_some_iff.mp hm
  rw [hms, checkMessages, if_pos hstop] at hcheck
  cases hcheck
  have halone := h.alone hstop.2
  rw [hms, length_cons] at halone
  obtain ⟨server, hserver, object, hobject, -⟩ := h.message hms
  exact ⟨by omega, rfl, server, hserver, ne_nil_of_mem hobject⟩

theorem FetchValid.curl (hopts : Usable opts) (h : FetchValid opts f) {g : Fetch}
    (hpass : Pass opts f g f' n) : FetchValid opts g := by
  obtain ⟨f₁, hstart, hevents⟩ := hpass.curl
  exact (h.startAll hstart).1.events hopts hevents

theorem stopped_iff : ¬Stopped f ↔ ∀ m ∈ f.messages.head?, ¬(m.outcome = .unreachable ∧ firstHost f.state = true) := by
  simp only [Stopped, not_exists, not_and]

theorem fetching_valid (hopts : Usable opts) (hf : Fetching opts f) : FetchValid opts f := by
  induction hf with
  | start hoption hadd =>
    have hempty : FetchValid opts ⟨⟨[], _, 0⟩, [], []⟩ :=
      ⟨.single (.option hoption), by simp, by simp [flying], by simp⟩
    exact (hempty.add hopts hadd).1
  | @pass _ g _ _ _ hpass hrunning ih =>
    have hg := ih.curl hopts hpass
    by_cases hstop : Stopped g
    · exact absurd (checkMessages_stopped hg hstop hpass.check).1 hrunning
    · exact (hg.check hopts rfl (stopped_iff.mp hstop) hpass.check).1

def Drained (s : State) : Prop :=
  ∀ server ∈ s.servers, server.pending = [] ∧ server.pipelines.flatten = []

def Transferred (s : State) (k : CStr × CStr) : Prop :=
  ∃ server ∈ s.servers, server.name = k.1 ∧ ∃ object ∈ server.finished, object.path = k.2

theorem Drained.transferred (h : Drained s) {k : CStr × CStr} (hk : k ∈ keys s.servers) :
    Transferred s k := by
  obtain ⟨name, path⟩ := k
  obtain ⟨server, hserver, hname, hpath⟩ := mem_keys.mp hk
  obtain ⟨object, hobject, rfl⟩ := mem_map.mp hpath
  obtain ⟨hpending, hpipelines⟩ := h server hserver
  refine ⟨server, hserver, hname, object, ?_, rfl⟩
  rcases mem_queues.mp hobject with hobject | hobject | hobject
  · rw [hpending] at hobject
    cases hobject
  · exact hobject
  · rw [hpipelines] at hobject
    cases hobject

/-- The first host did not fail, and every server with an object left has one of the last
transfers. -/
structure NothingLeft (g : Fetch) : Prop where
  reached : ¬Stopped g
  served : ∀ server ∈ g.state.servers, server.pending ≠ [] → ∃ m ∈ g.messages, m.object.serverName = server.name

theorem drained_iff (hopts : Usable opts) (hg : FetchValid opts f)
    (hcheck : checkMessages opts f.messages f none f.running.length = some (f', 0)) :
    Drained f'.state ↔ NothingLeft f := by
  by_cases hstop : Stopped f
  · obtain ⟨-, hstate, server, hserver, hbusy⟩ := checkMessages_stopped hg hstop hcheck
    refine iff_of_false (fun hdrained => ?_) fun h => h.reached hstop
    rw [hstate] at hdrained
    exact hbusy (hdrained server hserver).2
  · obtain ⟨h', hms, hlen, -, hzero⟩ := hg.check hopts rfl (stopped_iff.mp hstop) hcheck
    obtain ⟨⟨added, hwait⟩, hframe⟩ := hzero rfl
    constructor
    · intro hdrained
      have hnone : waiting f'.state.servers = [] :=
        flatMap_eq_nil_iff.mpr fun server hserver => (hdrained server hserver).1
      rw [hnone] at hwait
      have hempty : waiting f.state.servers = [] :=
        (append_eq_nil_iff.mp hwait.nil_eq.symm).2
      exact ⟨hstop, fun server hserver hpending =>
        absurd (flatMap_eq_nil_iff.mp hempty server hserver) hpending⟩
    · intro hleft server hserver
      constructor
      · by_contra hpending
        obtain ⟨hother, t, ht, hname, hpending⟩ := hframe server hserver hpending
        obtain ⟨m, hm, hsame⟩ := hleft.served t ht hpending
        exact hother m hm (hname.trans hsame.symm)
      · by_contra hbusy
        obtain ⟨object, hobject, -⟩ := h'.pipeline hserver hbusy
        rw [hms, eq_nil_of_length_eq_zero hlen] at hobject
        cases hobject

end Valid

/-- Every object was transferred and no queue holds any more, if and only if `NothingLeft` held
when the last messages were read. -/
theorem fetch_complete_iff {opts : Options} (hopts : Usable opts) {f g f' : Fetch}
    (hf : Fetching opts f) (hpass : Pass opts f g f' 0) :
    AnyRun opts HttpBookkeeping.start f'.state ∧ ((Drained f'.state ∧
        ∀ s, AnyRun opts HttpBookkeeping.start s → AnyRun opts s f'.state → ∀ k ∈ keys s.servers, Transferred f'.state k) ↔
        NothingLeft g) := by
  have hg := (fetching_valid hopts hf).curl hopts hpass
  have hrun : AnyRun opts HttpBookkeeping.start f'.state := by
    by_cases hstop : Stopped g
    · rw [(checkMessages_stopped hg hstop hpass.check).2.1]
      exact hg.run
    · exact (hg.check hopts rfl (stopped_iff.mp hstop) hpass.check).1.run
  refine ⟨hrun, ?_⟩
  rw [← drained_iff hopts hg hpass.check]
  refine ⟨And.left, fun hdrained => ⟨hdrained, fun s hs hrun k hk => ?_⟩⟩
  exact hdrained.transferred (run_keys hrun (run_valid hs start_valid) hk)

theorem pageOptions_usable : Usable pageOptions :=
  ⟨by decide, fun _ => ⟨by decide, Or.inl (by decide)⟩⟩

theorem fetching_page : Fetching pageOptions ⟨pageState 0 fun server => { server with pending := [page] }, [], []⟩ := by
  have hadd : addObject pageOptions [] ⟨[], some ⟨cstr "http://a", cstr "/", cstr "http"⟩, 0⟩ (cstr "http://a/") true =
        some (pageState 0 fun server => { server with pending := [page] }, some (cstr "http://a")) := by
    decide +kernel
  exact .start splitUrl_page hadd

theorem startAll_page : startAll pageOptions [cstr "http://a"]
    ⟨pageState 0 fun server => { server with pending := [page] }, [], []⟩ =
      some ⟨pageState 1 fun server => { server with pipelines := [[pageStarted], []] }, [pageStarted], []⟩ := by
  decide +kernel

def pageDone : Message := ⟨pageStarted, .ok, 200, []⟩

theorem pass_page (hfound : Relation.ReflTransGen (CurlEvent pageOptions)
      ⟨pageState 1 fun server => { server with pipelines := [[pageStarted], []] }, [pageStarted], []⟩ ⟨s, [pageStarted], []⟩)
    (hcheck : checkMessages pageOptions [pageDone] ⟨s, [], [pageDone]⟩ none 0 = some (f', n)) :
    Pass pageOptions ⟨pageState 0 fun server => { server with pending := [page] }, [], []⟩ ⟨s, [], [pageDone]⟩ f' n :=
  ⟨⟨_, startAll_page, hfound.tail (.completed s [] [] [] pageDone)⟩, hcheck⟩

def image : HttpObject := ⟨cstr "http://b", cstr "/x", [], 0, false, none, 0, 0⟩

def imageStarted : HttpObject := { image with url := cstr "http://b/x", handle := 3 }

def imageDone : Message := ⟨imageStarted, .ok, 200, []⟩

def imageState (handles : ℕ) (change : Server → Server) : State :=
  let s := pageState handles fun server => { server with pipelines := [[pageStarted], []] }
  { s with servers := s.servers ++ [change (createServer pageOptions (cstr "http://b"))] }

def imageFound : Fetch := ⟨imageState 1 fun server => { server with pending := [image] }, [pageStarted], []⟩

def bothArrived : Fetch :=
  ⟨imageState 3 fun server => { server with pipelines := [[imageStarted], []] }, [], [imageDone, pageDone]⟩

theorem fetching_image : Fetching pageOptions imageFound := by
  have hadd : addObject pageOptions [] (pageState 1 fun server => { server with pipelines := [[pageStarted], []] })
      (cstr "http://b/x") false = some (imageFound.state, some (cstr "http://b")) := by
    decide +kernel
  exact .pass fetching_page ⟨⟨_, startAll_page, .single (.found _ hadd)⟩, rfl⟩ one_ne_zero

theorem nothingLeft_bothArrived : NothingLeft bothArrived := by
  refine ⟨?_, fun server hserver hpending => ?_⟩
  · rintro ⟨m, hm, hfailed, -⟩
    cases hm
    cases hfailed
  · have hempty : ∀ server ∈ bothArrived.state.servers, server.pending = [] := by decide +kernel
    exact absurd (hempty server hserver) hpending

/-- The image is found while the page is on its way, and both arrive in the second pass. -/
theorem page_and_image_fetched : ∃ f', Fetching pageOptions imageFound ∧
    Pass pageOptions imageFound bothArrived f' 0 ∧ NothingLeft bothArrived ∧ Drained f'.state := by
  have hstart : startAll pageOptions [cstr "http://a", cstr "http://b"] imageFound =
      some { bothArrived with running := [pageStarted, imageStarted], messages := [] } := by
    decide +kernel
  have hrun : (checkMessages pageOptions [imageDone, pageDone] bothArrived none 0).map Prod.snd = some 0 := by
    decide +kernel
  obtain ⟨⟨f', n⟩, hcheck, rfl⟩ := Option.map_eq_some_iff.mp hrun
  have hpass : Pass pageOptions imageFound bothArrived f' 0 :=
    ⟨⟨_, hstart, (Relation.ReflTransGen.single (.completed _ [pageStarted] [] [] imageDone)).tail
      (.completed _ [] [] [imageDone] pageDone)⟩, hcheck⟩
  exact ⟨f', fetching_image, hpass, nothingLeft_bothArrived,
    ((fetch_complete_iff pageOptions_usable fetching_image hpass).2.mpr nothingLeft_bothArrived).1⟩

/-- No server is asked for the object `http://b/x` of the page `http://a/`, and `fetch` returns
with it pending. -/
theorem object_of_second_server_skipped : ∃ f g f', Fetching pageOptions f ∧ Pass pageOptions f g f' 0 ∧
    f'.state.servers.map (fun server => (server.name, server.pending.map HttpObject.path)) =
      [(cstr "http://a", []), (cstr "http://b", [cstr "/x"])] := by
  have hrun : (addObject pageOptions [] (pageState 1 fun server => { server with
      pipelines := [[pageStarted], []] }) (cstr "http://b/x") false).bind (fun r =>
        (checkMessages pageOptions [pageDone] ⟨r.1, [], [pageDone]⟩ none 0).map fun r =>
            (r.1.state.servers.map fun server => (server.name, server.pending.map HttpObject.path), r.2)) =
      some ([(cstr "http://a", []), (cstr "http://b", [cstr "/x"])], 0) := by
    decide +kernel
  obtain ⟨⟨s, r⟩, hadd, hrun⟩ := Option.bind_eq_some_iff.mp hrun
  obtain ⟨⟨f', n⟩, hcheck, hrun⟩ := Option.map_eq_some_iff.mp hrun
  simp only [Prod.mk.injEq] at hrun
  obtain ⟨hservers, rfl⟩ := hrun
  exact ⟨_, _, f', fetching_page, pass_page (.single (.found _ hadd)) hcheck, hservers⟩

end Amplet.HttpFetch
