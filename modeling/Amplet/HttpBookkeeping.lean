import Amplet.HttpObjects

/-!
# Bookkeeping of the HTTP test

What every sequence of queue operations keeps. The objects of all servers are followed
as one list of server and path, which each operation permutes or extends by a new pair.
-/

namespace Amplet.HttpBookkeeping
open List Bytes HttpUrl HttpObjects

def queues (server : Server) : List (List HttpObject) :=
  server.pending :: server.finished :: server.pipelines

def paths (server : Server) : List CStr := (queues server).flatten.map HttpObject.path

def keys (servers : List Server) : List (CStr × CStr) :=
  servers.flatMap fun server => (paths server).map (Prod.mk server.name)

theorem paths_eq (server : Server) : paths server = server.pending.map HttpObject.path ++
      (server.finished.map HttpObject.path ++ server.pipelines.flatten.map HttpObject.path) := by
  simp [paths, queues]

structure ServerValid (server : Server) : Prop where
  named : IsServer server.name
  owner : ∀ object ∈ (queues server).flatten, object.serverName = server.name
  path : ∀ object ∈ (queues server).flatten, IsPath object.path
  url : ∀ object ∈ server.pipelines.flatten, object.url = server.name ++ object.path
  counted : server.objects + server.failedObjects = UInt32.ofNat server.finished.length

variable {server : Server} {object : HttpObject} {memory url : CStr} {parse : Bool}
  {server' : Server}

theorem mem_queues : object ∈ (queues server).flatten ↔ object ∈ server.pending ∨ object ∈ server.finished ∨
      object ∈ server.pipelines.flatten := by
  simp [queues]

variable {path : CStr}

theorem isPath_take (h : ∃ rest, path = slash :: rest) : IsPath (path.take (maxPathLen - 1)) := by
  obtain ⟨rest, rfl⟩ := h
  refine ⟨⟨rest.take (maxPathLen - 2), rfl⟩, ?_⟩
  simp only [length_take, maxPathLen]
  omega

variable {name : CStr}

theorem server_take (h : IsServer name) : name.take (maxDnsNameLen - 1) = name :=
  take_of_length_le (by have := h.short; omega)

theorem createServer_valid (opts : Options) (h : IsServer name) :
    ServerValid (createServer opts name) ∧ (createServer opts name).name = name ∧ paths (createServer opts name) = [] := by
  have hname : (createServer opts name).name = name := server_take h
  have hempty : (queues (createServer opts name)).flatten = [] := by
    simp [queues, createServer]
  refine ⟨⟨by rwa [hname], by simp [hempty], by simp [hempty], by simp [createServer], rfl⟩, hname, ?_⟩
  rw [paths, hempty]
  rfl

theorem any_isObjectInQueue {pipelines : List (List HttpObject)} : pipelines.any (isObjectInQueue path) = true ↔
      path ∈ pipelines.flatten.map HttpObject.path := by
  simp only [any_eq_true, isObjectInQueue_iff, mem_map, mem_flatten]
  constructor
  · rintro ⟨pipeline, hpipeline, object, hobject, rfl⟩
    exact ⟨object, ⟨pipeline, hpipeline, hobject⟩, rfl⟩
  · rintro ⟨object, ⟨pipeline, hpipeline, hobject⟩, rfl⟩
    exact ⟨pipeline, hpipeline, object, hobject, rfl⟩

theorem enqueueObject_eq (hvalid : ServerValid server) (path : CStr) (parse : Bool) :
    enqueueObject server.name path parse server =
      if path ∈ paths server then server
      else { server with pending := server.pending ++ [newObject server.name path parse] } := by
  have howner : ∀ object ∈ server.pending, object.serverName = server.name :=
    fun object hobject => hvalid.owner object (mem_queues.mpr (Or.inl hobject))
  have hpaths : path ∈ paths server ↔ path ∈ server.pending.map HttpObject.path ∨ path ∈ server.finished.map HttpObject.path ∨
      path ∈ server.pipelines.flatten.map HttpObject.path := by
    simp only [paths_eq, mem_append]
  rw [enqueueObject]
  simp only [isObjectInQueue_iff, any_isObjectInQueue, createObject_eq parse howner, hpaths]
  by_cases hfinished : path ∈ server.finished.map HttpObject.path
  · simp only [hfinished, true_or, or_true, if_true]
  · by_cases hpipelines : path ∈ server.pipelines.flatten.map HttpObject.path
    · simp only [hfinished, hpipelines, or_true, if_true, if_false]
    · by_cases hpending : path ∈ server.pending.map HttpObject.path
      · simp only [hfinished, hpipelines, hpending, true_or, if_true, if_false]
      · simp only [hfinished, hpipelines, hpending, or_self, if_false]

theorem enqueueObject_valid (hvalid : ServerValid server) (hrooted : ∃ rest, path = slash :: rest) (parse : Bool) :
    ServerValid (enqueueObject server.name path parse server) ∧ (enqueueObject server.name path parse server).name = server.name ∧
      (paths (enqueueObject server.name path parse server)).Perm
        ((if path ∈ paths server then [] else [path.take (maxPathLen - 1)]) ++ paths server) := by
  rw [enqueueObject_eq hvalid]
  split_ifs with hmem
  · exact ⟨hvalid, rfl, .refl _⟩
  · have hqueues : (queues { server with
        pending := server.pending ++ [newObject server.name path parse] }).flatten.Perm
        (newObject server.name path parse :: (queues server).flatten) := by
      simp only [queues, flatten_cons, append_assoc]
      exact perm_middle
    refine ⟨⟨hvalid.named, ?_, ?_, hvalid.url, hvalid.counted⟩, rfl, hqueues.map _⟩
    · intro object hobject
      rcases mem_cons.mp (hqueues.mem_iff.mp hobject) with rfl | hobject
      · exact server_take hvalid.named
      · exact hvalid.owner object hobject
    · intro object hobject
      rcases mem_cons.mp (hqueues.mem_iff.mp hobject) with rfl | hobject
      · exact isPath_take hrooted
      · exact hvalid.path object hobject

theorem url_take (hvalid : ServerValid server) (hobject : object ∈ (queues server).flatten) :
    (object.serverName ++ object.path).take (maxUrlLen - 1) = server.name ++ object.path := by
  rw [hvalid.owner object hobject]
  have hserver := hvalid.named.short
  have hpath := (hvalid.path object hobject).short
  refine take_of_length_le ?_
  simp only [length_append, maxUrlLen] at *
  omega

def key (object : HttpObject) : CStr × CStr := (object.serverName, object.path)

theorem ServerValid.moved (hvalid : ServerValid server) (server' : Server) (hname : server'.name = server.name)
    (hkeys : ((queues server').flatten.map key).Perm ((queues server).flatten.map key))
    (hurl : ∀ object ∈ server'.pipelines.flatten, object.url = server.name ++ object.path)
    (hcounted : server'.objects + server'.failedObjects = UInt32.ofNat server'.finished.length) :
    ServerValid server' ∧ (paths server').Perm (paths server) := by
  have hmem : ∀ object ∈ (queues server').flatten, ∃ object' ∈ (queues server).flatten,
      object'.serverName = object.serverName ∧ object'.path = object.path := by
    intro object hobject
    have hkey := hkeys.mem_iff.mp (mem_map_of_mem (f := key) hobject)
    obtain ⟨object', hobject', heq⟩ := mem_map.mp hkey
    exact ⟨object', hobject', Prod.mk.inj heq⟩
  refine ⟨⟨hname ▸ hvalid.named, ?_, ?_, by rwa [hname], hcounted⟩, ?_⟩
  · intro object hobject
    obtain ⟨object', hobject', hserver, -⟩ := hmem object hobject
    rw [hname, ← hserver, hvalid.owner object' hobject']
  · intro object hobject
    obtain ⟨object', hobject', -, hpath⟩ := hmem object hobject
    rw [← hpath]
    exact hvalid.path object' hobject'
  · have hpaths := hkeys.map Prod.snd
    rw [map_map, map_map] at hpaths
    exact hpaths

structure Started (handle : ℕ) (server server' : Server) (object : Option HttpObject) : Prop where
  valid : ServerValid server'
  name : server'.name = server.name
  paths : (paths server').Perm (paths server)
  finished : server'.finished = server.finished
  pending : server'.pending = server.pending.drop object.toList.length
  pipelines : server'.pipelines.flatten.Perm (object.toList ++ server.pipelines.flatten)
  fetched : ∀ o ∈ object, o.url = server.name ++ o.path ∧ o.handle = handle

variable {opts : Options}

theorem pipelineNextObject_spec {handle : ℕ} {object : Option HttpObject} (hvalid : ServerValid server)
    (h : pipelineNextObject opts handle server = some (server', object)) :
    Started handle server server' object := by
  rw [pipelineNextObject] at h
  split at h
  next hpending =>
    cases h
    exact ⟨hvalid, rfl, .refl _, rfl, rfl, .refl _, by simp⟩
  next first pending hpending =>
    split at h
    · cases h
    next hselect =>
      obtain ⟨⟨pipelen, rfl⟩, -⟩ := selectPipeline_some hselect
      cases h
      exact ⟨⟨hvalid.named, hvalid.owner, hvalid.path, hvalid.url, hvalid.counted⟩, rfl, .refl _,
        rfl, rfl, .refl _, by simp⟩
    next i hselect =>
      obtain ⟨⟨pipelen, rfl⟩, hi⟩ := selectPipeline_some hselect
      cases h
      have hfirst : first ∈ (queues server).flatten := mem_queues.mpr (Or.inl (by simp [hpending]))
      rw [url_take hvalid hfirst]
      have hperm := flatten_modify_perm (hi i rfl)
        { first with url := server.name ++ first.path, handle := handle }
      have hmoved := hvalid.moved { server with
          pipelen := pipelen
          pending := pending
          pipelines := server.pipelines.modify i (addObjectToQueue
            { first with url := server.name ++ first.path, handle := handle }) } rfl ?_ ?_
          hvalid.counted
      · exact ⟨hmoved.1, rfl, hmoved.2, rfl, by simp [hpending], hperm, by simp⟩
      · simp only [queues, flatten_cons, hpending, cons_append, map_append, map_cons]
        have hkeys := hperm.map key
        rw [map_cons] at hkeys
        exact ((hkeys.append_left _).trans perm_middle).append_left _ |>.trans perm_middle
      · intro object hobject
        rcases mem_cons.mp (hperm.mem_iff.mp hobject) with rfl | hobject
        · rfl
        · exact hvalid.url object hobject

structure Finished (server server' : Server) (object : HttpObject) : Prop where
  valid : ServerValid server'
  name : server'.name = server.name
  paths : (paths server').Perm (paths server)
  pending : server'.pending = server.pending
  finished : server'.finished = server.finished ++ [object]
  pipelines : ∃ object', object'.path = object.path ∧ object'.location = object.location ∧ object'.parse = object.parse ∧
    server.pipelines.flatten.Perm (object' :: server'.pipelines.flatten)
  length : server'.pipelines.length = server.pipelines.length
  maxrequests : server'.pipeliningMaxrequests = server.pipeliningMaxrequests

theorem finishObject_spec (hvalid : ServerValid server) {i j : ℕ}
    {pipelines : List (List HttpObject)}
    (hpop : popFromPipelines path i server.pipelines = (pipelines, some (object, j))) (code : ℤ) :
    Finished server (finishObject server pipelines { object with code := code, pipeline := UInt8.ofNat j } code)
      { object with code := code, pipeline := UInt8.ofNat j } := by
  obtain ⟨hpath, hperm⟩ := popFromPipelines_some hpop
  have hmoved := hvalid.moved (finishObject server pipelines { object with code := code, pipeline := UInt8.ofNat j } code)
    rfl ?_ ?_ ?_
  · have hlength := popFromPipelines_length path i server.pipelines
    rw [hpop] at hlength
    exact ⟨hmoved.1, rfl, hmoved.2, rfl, addObjectToQueue_eq _ _, ⟨object, rfl, rfl, rfl, hperm⟩, hlength, rfl⟩
  · have hkeys := hperm.map key
    rw [map_cons] at hkeys
    simp only [queues, finishObject, addObjectToQueue_eq, flatten_cons, map_append, map_cons, append_assoc, singleton_append]
    exact (hkeys.symm.append_left _).append_left _
  · intro o ho
    exact hvalid.url o (hperm.mem_iff.mpr (mem_cons_of_mem _ ho))
  · have hcounted := hvalid.counted
    simp only [finishObject, addObjectToQueue_eq, length_append, length_singleton, UInt32.ofNat_add, ← hcounted]
    have hone : UInt32.ofNat 1 = 1 := rfl
    rw [hone]
    split_ifs <;> ac_rfl

theorem statusLine_spec (hvalid : ServerValid server) (opts : Options) (http11 : Bool) :
    ServerValid (statusLine opts http11 server) ∧ (statusLine opts http11 server).name = server.name ∧
      queues (statusLine opts http11 server) = queues server := by
  rw [statusLine]
  split
  · exact ⟨⟨hvalid.named, hvalid.owner, hvalid.path, hvalid.url, hvalid.counted⟩, rfl, rfl⟩
  · exact ⟨hvalid, rfl, rfl⟩

theorem setLocation_eq (handle : ℕ) (location : CStr) (object : HttpObject) :
    key (setLocation handle location object) = key object ∧ (setLocation handle location object).url = object.url := by
  rw [setLocation]
  split_ifs <;> exact ⟨rfl, rfl⟩

theorem locationHeader_spec (hvalid : ServerValid server) (handle : ℕ) (location : CStr) :
    ServerValid (locationHeader handle location server) ∧
      (paths (locationHeader handle location server)).Perm (paths server) := by
  have hkey : key ∘ setLocation handle location = key :=
    funext fun object => (setLocation_eq handle location object).1
  refine hvalid.moved (locationHeader handle location server) rfl (Perm.of_eq ?_) ?_ ?_
  · simp only [queues, locationHeader, flatten_cons, map_append, map_flatten, map_map, hkey, Function.comp_def]
  · intro object hobject
    simp only [locationHeader, ← map_flatten] at hobject
    obtain ⟨o, ho, rfl⟩ := mem_map.mp hobject
    obtain ⟨hkey, hurl⟩ := setLocation_eq handle location o
    rw [hurl, hvalid.url o ho, (Prod.mk.inj hkey).2]
  · simpa [locationHeader] using hvalid.counted

section Servers

variable {name : CStr} {f : Server → Server} {servers : List Server} {server : Server}

theorem findServer_some (h : findServer name servers = some server) : server ∈ servers ∧ server.name = name := by
  have hname := find?_some h
  simp only [decide_eq_true_eq] at hname
  exact ⟨mem_of_find?_eq_some h, hname.symm⟩

theorem updateServer_cons (first : Server) : updateServer name f (first :: servers) =
      if name = first.name then f first :: servers else first :: updateServer name f servers :=
  rfl

theorem findServer_cons (first : Server) : findServer name (first :: servers) =
      if name = first.name then some first else findServer name servers := by
  rw [findServer, find?_cons]
  split_ifs with h <;> simp [h, findServer]

theorem updateServer_names (h : findServer name servers = some server) (hf : (f server).name = server.name) :
    (updateServer name f servers).map Server.name = servers.map Server.name := by
  induction servers with
  | nil => rfl
  | cons first servers ih =>
    rw [findServer_cons] at h
    rw [updateServer_cons]
    split_ifs at h ⊢ with hname
    · cases h
      simp [hf]
    · simp [ih h]

theorem updateServer_flatMap {α : Type*} {g : Server → List α} (lost added : List α) (h : findServer name servers = some server)
    (hg : (lost ++ g (f server)).Perm (added ++ g server)) :
    (lost ++ (updateServer name f servers).flatMap g).Perm (added ++ servers.flatMap g) := by
  induction servers with
  | nil => cases h
  | cons first servers ih =>
    have hswap (a b c : List α) : (a ++ (b ++ c)).Perm (b ++ (a ++ c)) := by
      rw [← append_assoc, ← append_assoc]
      exact perm_append_comm.append_right _
    rw [findServer_cons] at h
    rw [updateServer_cons]
    split_ifs at h ⊢ with hname
    · cases h
      simp only [flatMap_cons, ← append_assoc]
      exact hg.append_right _
    · simp only [flatMap_cons]
      exact (hswap _ _ _).trans (((ih h).append_left _).trans (hswap _ _ _))

theorem updateServer_keys (h : findServer name servers = some server) (hf : (f server).name = server.name) {added : List CStr}
    (hpaths : (paths (f server)).Perm (added ++ paths server)) :
    (keys (updateServer name f servers)).Perm (added.map (Prod.mk name) ++ keys servers) := by
  refine updateServer_flatMap [] _ h ?_
  have hkeys := hpaths.map (Prod.mk name)
  rw [map_append] at hkeys
  rwa [hf, (findServer_some h).2]

theorem updateServer_forall {P : Server → Prop} (hall : ∀ t ∈ servers, P t)
    (h : findServer name servers = some server) (hf : P (f server)) :
    ∀ t ∈ updateServer name f servers, P t := by
  induction servers with
  | nil => cases h
  | cons first servers ih =>
    rw [findServer_cons] at h
    rw [updateServer_cons]
    rw [forall_mem_cons] at hall
    split_ifs at h ⊢ with hname
    · cases h
      exact forall_mem_cons.mpr ⟨hf, hall.2⟩
    · exact forall_mem_cons.mpr ⟨hall.1, ih hall.2 h⟩

theorem getServer_eq (opts : Options) (name : CStr) (servers : List Server) : getServer opts name servers =
      if (findServer name servers).isSome then servers else servers ++ [createServer opts name] := by
  induction servers with
  | nil => rfl
  | cons first servers ih =>
    rw [getServer, findServer_cons, ih]
    split_ifs <;> simp_all

theorem mem_keys : (name, path) ∈ keys servers ↔ ∃ t ∈ servers, t.name = name ∧ path ∈ paths t := by
  simp only [keys, mem_flatMap, mem_map, Prod.mk.injEq]
  constructor
  · rintro ⟨t, ht, p, hp, hname, rfl⟩
    exact ⟨t, ht, hname, hp⟩
  · rintro ⟨t, ht, hname, hp⟩
    exact ⟨t, ht, path, hp, hname, rfl⟩

theorem findServer_of_mem (hnodup : (servers.map Server.name).Nodup) (h : server ∈ servers) :
    findServer server.name servers = some server := by
  induction servers with
  | nil => cases h
  | cons first servers ih =>
    rw [map_cons, nodup_cons] at hnodup
    rw [findServer_cons]
    rcases mem_cons.mp h with rfl | h
    · simp
    · have hne : server.name ≠ first.name := by
        intro heq
        exact hnodup.1 (heq ▸ mem_map_of_mem h)
      rw [if_neg hne, ih hnodup.2 h]

end Servers

structure StateValid (s : State) : Prop where
  names : (s.servers.map Server.name).Nodup
  servers : ∀ server ∈ s.servers, ServerValid server
  base : ∀ b ∈ s.base, b.Valid
  started : s.servers ≠ [] → s.base.isSome

variable {s : State}

theorem getServer_spec (opts : Options) (hs : StateValid s) (hname : IsServer name) :
    ((getServer opts name s.servers).map Server.name).Nodup ∧ (∀ server ∈ getServer opts name s.servers, ServerValid server) ∧
      keys (getServer opts name s.servers) = keys s.servers ∧
      ∃ server, findServer name (getServer opts name s.servers) = some server := by
  rw [getServer_eq]
  split_ifs with hfound
  · exact ⟨hs.names, hs.servers, rfl, Option.isSome_iff_exists.mp hfound⟩
  · obtain ⟨hvalid, hnew, hpaths⟩ := createServer_valid opts hname
    have hnone : findServer name s.servers = none := by simpa using hfound
    refine ⟨?_, ?_, ?_, createServer opts name, ?_⟩
    · rw [map_append, map_singleton, hnew, nodup_append]
      refine ⟨hs.names, nodup_singleton _, ?_⟩
      intro a ha b hb hab
      obtain ⟨server, hserver, rfl⟩ := mem_map.mp ha
      have hne := find?_eq_none.mp hnone server hserver
      rw [mem_singleton] at hb
      simp [hab, hb] at hne
    · intro server hserver
      rcases mem_append.mp hserver with hserver | hserver
      · exact hs.servers server hserver
      · rw [mem_singleton.mp hserver]
        exact hvalid
    · simp [keys, hpaths]
    · rw [findServer, find?_append, show find? _ s.servers = none from hnone]
      simp [hnew]

variable {s' : State}

theorem addObject_cases {r : Option CStr} (h : addObject opts memory s url parse = some (s', r)) : (r = none ∧ s' = s) ∨
      ∃ split, splitUrl memory s.base url parse = some split ∧ r = some split.server ∧ s' = { s with
          servers := updateServer split.server (enqueueObject split.server split.path parse)
            (getServer opts split.server s.servers)
          base := split.base } := by
  rw [addObject] at h
  split_ifs at h with hignored
  · cases h
    exact Or.inl ⟨rfl, rfl⟩
  · split at h
    · cases h
    next split hsplit =>
      cases h
      exact Or.inr ⟨split, hsplit, rfl, rfl⟩

section

variable (hs : StateValid s)
include hs

theorem addObject_spec {r : Option CStr} (h : addObject opts memory s url parse = some (s', r)) :
    StateValid s' ∧ s'.handles = s.handles ∧ ((r = none ∧ s' = s) ∨
        ∃ split, splitUrl memory s.base url parse = some split ∧ r = some split.server ∧ (keys s'.servers).Perm
            ((if (split.server, split.path) ∈ keys s.servers then []
              else [(split.server, split.path.take (maxPathLen - 1))]) ++ keys s.servers)) := by
  obtain ⟨rfl, rfl⟩ | ⟨split, hsplit, rfl, rfl⟩ := addObject_cases h
  · exact ⟨hs, rfl, Or.inl ⟨rfl, rfl⟩⟩
  · obtain ⟨hserver, hbase, hvalid, hrooted, -⟩ := splitUrl_valid hsplit hs.base
    obtain ⟨hnames, hservers, hkeys, server, hfind⟩ := getServer_spec opts hs hserver
    obtain ⟨hmem, hname⟩ := findServer_some hfind
    have hspec := enqueueObject_valid (hservers server hmem) hrooted parse
    rw [hname] at hspec
    obtain ⟨hok, hsame, hpaths⟩ := hspec
    refine ⟨⟨?_, ?_, hvalid, fun _ => hbase⟩, rfl, Or.inr ⟨split, hsplit, rfl, ?_⟩⟩
    · dsimp only
      rwa [updateServer_names hfind (hsame.trans hname.symm)]
    · exact updateServer_forall hservers hfind hok
    · have hin : (split.server, split.path) ∈ keys s.servers ↔ split.path ∈ paths server := by
        rw [← hkeys, mem_keys]
        constructor
        · rintro ⟨t, ht, htname, hpath⟩
          have hsame := findServer_of_mem hnames ht
          rw [htname, hfind] at hsame
          rwa [Option.some.inj hsame]
        · intro hpath
          exact ⟨server, hmem, hname, hpath⟩
      have hperm := updateServer_keys hfind (hsame.trans hname.symm) hpaths
      rw [hkeys] at hperm
      simp only [hin]
      split_ifs at hperm ⊢ <;> exact hperm

theorem StateValid.replace {f : Server → Server} (hfind : findServer name s.servers = some server)
    (hf : ServerValid (f server)) (hname : (f server).name = server.name)
    (hpaths : (paths (f server)).Perm (paths server)) (base : Option UrlBase)
    (hbase : base = s.base) (handles : ℕ) :
    StateValid ⟨updateServer name f s.servers, base, handles⟩ ∧ (keys (updateServer name f s.servers)).Perm (keys s.servers) := by
  subst hbase
  refine ⟨⟨?_, updateServer_forall hs.servers hfind hf, hs.base, fun _ => hs.started ?_⟩, ?_⟩
  · dsimp only
    rw [updateServer_names hfind hname]
    exact hs.names
  · exact ne_nil_of_mem (findServer_some hfind).1
  · have hadded : (paths (f server)).Perm ([] ++ paths server) := hpaths
    exact updateServer_keys hfind hname hadded

theorem nextObject_spec {name : Option CStr} {object : Option HttpObject} (h : nextObject opts s name = some (s', object)) :
    StateValid s' ∧ (keys s'.servers).Perm (keys s.servers) ∧ s'.base = s.base ∧
      ((s' = s ∧ object = none ∧ ∀ server ∈ s.servers, name ≠ some server.name) ∨
        ∃ server server', server ∈ s.servers ∧ name = some server.name ∧
          pipelineNextObject opts (s.handles + 1) server = some (server', object) ∧
          Started (s.handles + 1) server server' object ∧
          s'.servers = updateServer server.name (fun _ => server') s.servers) := by
  rw [nextObject] at h
  split at h
  next hnone =>
    cases h
    refine ⟨hs, .refl _, rfl, Or.inl ⟨rfl, rfl, ?_⟩⟩
    rintro server hserver rfl
    rw [Option.bind_some, findServer_of_mem hs.names hserver] at hnone
    cases hnone
  next server hserver =>
    obtain ⟨n, rfl, hfind⟩ := Option.bind_eq_some_iff.mp hserver
    obtain ⟨hmem, rfl⟩ := findServer_some hfind
    split at h
    · cases h
    next server' object' hnext =>
      cases h
      have hstarted := pipelineNextObject_spec (hs.servers server hmem) hnext
      obtain ⟨hvalid, hkeys⟩ := hs.replace (f := fun _ => server') hfind hstarted.valid
        hstarted.name hstarted.paths s.base rfl (s.handles + 1)
      exact ⟨hvalid, hkeys, rfl, Or.inr ⟨server, server', hmem, rfl, hnext, hstarted, rfl⟩⟩

theorem saveStats_spec {saved : HttpObject} {code : ℤ} (hserver : server ∈ s.servers)
    (hobject : object ∈ server.pipelines.flatten)
    (h : saveStats memory s object.url code = some (s', saved)) :
    StateValid s' ∧ (keys s'.servers).Perm (keys s.servers) ∧ s'.base = s.base ∧
      s'.handles = s.handles ∧ saved.path = object.path ∧ saved.code = code ∧
      ∃ server', Finished server server' saved ∧ s'.servers = updateServer server.name (fun _ => server') s.servers := by
  have hvalid := hs.servers server hserver
  have hmem : object ∈ (queues server).flatten := mem_queues.mpr (Or.inr (Or.inr hobject))
  have hbase := hs.started (ne_nil_of_mem hserver)
  rw [saveStats, hvalid.url object hobject, splitUrl_append hvalid.named (hvalid.path object hmem) memory hbase] at h
  dsimp only at h
  rw [findServer_of_mem hs.names hserver] at h
  dsimp only at h
  split at h
  · cases h
  next pipelines popped i hpop =>
    cases h
    have hfinished := finishObject_spec hvalid hpop code
    obtain ⟨hvalid', hkeys⟩ := hs.replace (f := fun _ => finishObject server pipelines
        { popped with code := code, pipeline := UInt8.ofNat i } code)
      (findServer_of_mem hs.names hserver) hfinished.valid rfl hfinished.paths s.base rfl s.handles
    exact ⟨hvalid', hkeys, rfl, rfl, (popFromPipelines_some hpop).1, rfl, _, hfinished, rfl⟩

theorem keys_locationHeader (handle : ℕ) (location : CStr) :
    StateValid { s with servers := s.servers.map (locationHeader handle location) } ∧
      (keys (s.servers.map (locationHeader handle location))).Perm (keys s.servers) := by
  have hspec := fun server hserver => locationHeader_spec (hs.servers server hserver) handle location
  refine ⟨⟨?_, ?_, hs.base, fun hne => hs.started (by simpa using hne)⟩, ?_⟩
  · have hname : Server.name ∘ locationHeader handle location = Server.name := rfl
    simpa only [map_map, hname] using hs.names
  · intro server hserver
    obtain ⟨server, hmem, rfl⟩ := mem_map.mp hserver
    exact (hspec server hmem).1
  · simp only [keys, flatMap_map]
    exact Perm.flatMap_left _ fun server hserver => ((hspec server hserver).2.map _)

end

inductive Step (opts : Options) (allowed : Option UrlBase → CStr → Prop) : State → State → Prop
  | option {s : State} {memory url : CStr} {split : Split}
      (h : splitUrl memory s.base url true = some split) :
      Step opts allowed s { s with base := split.base }
  | add {s s' : State} {memory url : CStr} {parse : Bool} {r : Option CStr}
      (hurl : allowed s.base url) (h : addObject opts memory s url parse = some (s', r)) :
      Step opts allowed s s'
  | next {s s' : State} {name : Option CStr} {object : Option HttpObject}
      (h : nextObject opts s name = some (s', object)) : Step opts allowed s s'
  | save {s s' : State} {memory : CStr} {server : Server} {object saved : HttpObject} {code : ℤ}
      (hserver : server ∈ s.servers) (hobject : object ∈ server.pipelines.flatten)
      (h : saveStats memory s object.url code = some (s', saved)) : Step opts allowed s s'
  | status {s : State} {server : Server} (hserver : server ∈ s.servers) (http11 : Bool) :
      Step opts allowed s
        { s with servers := updateServer server.name (statusLine opts http11) s.servers }
  | location (s : State) (handle : ℕ) (location : CStr) :
      Step opts allowed s { s with servers := s.servers.map (locationHeader handle location) }

theorem step_keeps {allowed : Option UrlBase → CStr → Prop} (hs : StateValid s) (h : Step opts allowed s s') :
    StateValid s' ∧ ∃ added, (keys s'.servers).Perm (added ++ keys s.servers) ∧
      ((∀ base url, allowed base url → Terminated base url) → (keys s.servers).Nodup → (added ++ keys s.servers).Nodup) := by
  cases h with
  | option hsplit =>
    obtain ⟨-, hsome, hbase, -⟩ := splitUrl_valid hsplit hs.base
    exact ⟨⟨hs.names, hs.servers, hbase, fun _ => hsome⟩, [], .refl _, fun _ hnodup => hnodup⟩
  | add hurl hadd =>
    obtain ⟨hvalid, -, ⟨-, rfl⟩ | ⟨split, hsplit, -, hperm⟩⟩ := addObject_spec hs hadd
    · exact ⟨hs, [], .refl _, fun _ hnodup => hnodup⟩
    · refine ⟨hvalid, _, hperm, fun hterm hnodup => ?_⟩
      have hshort := (splitUrl_valid hsplit hs.base).2.2.2.2.mpr (hterm _ _ hurl)
      have hpath : split.path.take (maxPathLen - 1) = split.path :=
        take_of_length_le (by omega)
      split_ifs with hmem
      · exact hnodup
      · rw [hpath]
        exact nodup_cons.mpr ⟨hmem, hnodup⟩
  | next hnext =>
    obtain ⟨hvalid, hperm, -⟩ := nextObject_spec hs hnext
    exact ⟨hvalid, [], hperm, fun _ hnodup => hnodup⟩
  | save hserver hobject hsave =>
    obtain ⟨hvalid, hperm, -⟩ := saveStats_spec hs hserver hobject hsave
    exact ⟨hvalid, [], hperm, fun _ hnodup => hnodup⟩
  | status hserver http11 =>
    obtain ⟨hvalid, hname, hqueues⟩ := statusLine_spec (hs.servers _ hserver) opts http11
    obtain ⟨hvalid, hperm⟩ := hs.replace (findServer_of_mem hs.names hserver) hvalid hname
      (by rw [paths, hqueues]; exact .refl _) s.base rfl s.handles
    exact ⟨hvalid, [], hperm, fun _ hnodup => hnodup⟩
  | location handle location =>
    obtain ⟨hvalid, hperm⟩ := keys_locationHeader hs handle location
    exact ⟨hvalid, [], hperm, fun _ hnodup => hnodup⟩

abbrev Run (opts : Options) (allowed : Option UrlBase → CStr → Prop) : State → State → Prop :=
  Relation.ReflTransGen (Step opts allowed)

def start : State := ⟨[], none, 0⟩

theorem start_valid : StateValid start :=
  ⟨nodup_nil, by simp [start], by simp [start], fun h => absurd rfl h⟩

section Runs

variable {opts : Options} {allowed : Option UrlBase → CStr → Prop} {s s' : State}

theorem run_valid (hrun : Run opts allowed s s') (hs : StateValid s) : StateValid s' := by
  induction hrun with
  | refl => exact hs
  | tail _ hstep ih => exact (step_keeps ih hstep).1

theorem run_keys (hrun : Run opts allowed s s') (hs : StateValid s) {k : CStr × CStr}
    (hk : k ∈ keys s.servers) : k ∈ keys s'.servers := by
  induction hrun with
  | refl => exact hk
  | tail hrun hstep ih =>
    obtain ⟨-, added, hperm, -⟩ := step_keeps (run_valid hrun hs) hstep
    exact hperm.mem_iff.mpr (mem_append_right _ ih)

theorem run_nodup (hallowed : ∀ base url, allowed base url → Terminated base url)
    (hrun : Run opts allowed s s') (hs : StateValid s) (hnodup : (keys s.servers).Nodup) :
    (keys s'.servers).Nodup := by
  induction hrun with
  | refl => exact hnodup
  | tail hrun hstep ih =>
    obtain ⟨-, added, hperm, hadded⟩ := step_keeps (run_valid hrun hs) hstep
    exact hperm.nodup_iff.mpr (hadded hallowed ih)

end Runs

theorem paths_nodup {servers : List Server} (h : (keys servers).Nodup) (hserver : server ∈ servers) : (paths server).Nodup :=
  ((nodup_flatMap.mp h).1 server hserver).of_map

theorem countP_isObjectInQueue {queues : List (List HttpObject)} (hnodup : (queues.flatten.map HttpObject.path).Nodup)
    (hmem : path ∈ queues.flatten.map HttpObject.path) :
    queues.countP (isObjectInQueue path) = 1 := by
  induction queues with
  | nil => simp at hmem
  | cons queue queues ih =>
    rw [flatten_cons, map_append] at hnodup hmem
    obtain ⟨-, hrest, hapart⟩ := nodup_append.mp hnodup
    by_cases hqueue : path ∈ queue.map HttpObject.path
    · have hnone : queues.countP (isObjectInQueue path) = 0 := by
        rw [countP_eq_zero]
        intro q hq hin
        have hflat : path ∈ queues.flatten.map HttpObject.path :=
          any_isObjectInQueue.mp (any_eq_true.mpr ⟨q, hq, hin⟩)
        exact hapart path hqueue path hflat rfl
      rw [countP_cons_of_pos (isObjectInQueue_iff.mpr hqueue), hnone]
    · have hin := (mem_append.mp hmem).resolve_left hqueue
      rw [countP_cons_of_neg (fun h => hqueue (isObjectInQueue_iff.mp h)), ih hrest hin]

def lengths (server : Server) : List UInt32 :=
  server.pipelines.map fun pipeline => UInt32.ofNat pipeline.length

theorem scanPipelines_counts (threshold maxrequests : UInt32) (i : ℕ) (size : UInt32)
    (smallest : Option ℕ) (pipelines : List (List HttpObject)) :
    ∃ k, (scanPipelines threshold maxrequests i size smallest pipelines).1 =
        (pipelines.map fun pipeline => UInt32.ofNat pipeline.length).take k ∧
      ∀ j, (scanPipelines threshold maxrequests i size smallest pipelines).2 = some j → smallest = some j ∨
          j < i + (scanPipelines threshold maxrequests i size smallest pipelines).1.length := by
  induction pipelines generalizing i size smallest with
  | nil =>
    refine ⟨0, rfl, fun j hj => ?_⟩
    rw [scanPipelines] at hj
    dsimp only at hj
    split_ifs at hj
    exact Or.inl hj
  | cons pipeline pipelines ih =>
    have hsmallest : ∀ j, (if UInt32.ofNat pipeline.length < size then
        (UInt32.ofNat pipeline.length, some i) else (size, smallest)).2 = some j → smallest = some j ∨ j = i := by
      intro j hj
      split_ifs at hj
      · exact Or.inr (Option.some.inj hj).symm
      · exact Or.inl hj
    rw [scanPipelines]
    dsimp only
    by_cases hroom : UInt32.ofNat pipeline.length < threshold ∧ UInt32.ofNat pipeline.length < maxrequests
    · rw [if_pos hroom]
      refine ⟨1, rfl, fun j hj => ?_⟩
      cases hj
      exact Or.inr (by simp)
    · rw [if_neg hroom]
      generalize (if UInt32.ofNat pipeline.length < size then
        (UInt32.ofNat pipeline.length, some i) else (size, smallest)) = next at hsmallest ⊢
      obtain ⟨k, hk, hindex⟩ := ih (i + 1) next.1 next.2
      refine ⟨k + 1, by rw [hk]; rfl, fun j hj => ?_⟩
      rcases hindex j hj with hnext | hlt
      · rcases hsmallest j hnext with hold | rfl
        · exact Or.inl hold
        · exact Or.inr (by simp)
      · exact Or.inr (by rw [length_cons]; omega)

theorem selectPipeline_counts {threshold : UInt32} {r : Option ℕ} (h : selectPipeline threshold server = some (server', r)) :
    (∀ pipelen, (selectPipeline threshold { server with pipelen := pipelen }).map Prod.snd = some r) ∧
      ∃ k, server'.pipelen = (lengths server).take k ++ server.pipelen.drop k ∧ ∀ i ∈ r, server.objects < 1 ∨ i < k := by
  rw [selectPipeline] at h
  unfold selectPipeline
  by_cases hfirst : server.objects < 1
  · simp only [hfirst, if_true] at h ⊢
    cases hpipelines : server.pipelines with
    | nil => simp [hpipelines] at h
    | cons first rest =>
      simp only [hpipelines, Option.some.injEq, Prod.mk.injEq] at h
      obtain ⟨rfl, rfl⟩ := h
      exact ⟨fun _ => rfl, 0, by simp, fun _ _ => Or.inl trivial⟩
  · simp only [hfirst, if_false, Option.some.injEq, Prod.mk.injEq] at h ⊢
    obtain ⟨rfl, rfl⟩ := h
    refine ⟨fun _ => rfl, ?_⟩
    obtain ⟨k, hk, hindex⟩ := scanPipelines_counts threshold server.pipeliningMaxrequests 0
      (server.pipeliningMaxrequests + 1) none server.pipelines
    refine ⟨(scanPipelines threshold server.pipeliningMaxrequests 0
      (server.pipeliningMaxrequests + 1) none server.pipelines).1.length, ?_, fun i hi => ?_⟩
    · dsimp only
      congr 1
      rw [hk, lengths, length_take, ← take_take, take_length]
    · rcases hindex i hi with hnone | hlt
      · cases hnone
      · exact Or.inr (by simpa using hlt)

/-- `strncpy` leaves an absolute path that is too long for the buffer unterminated. It is found in no
queue, and every call queues it again. -/
theorem addObject_unterminated (hrun : Run opts (fun _ _ => True) start s)
    (hurl : ¬ Terminated s.base url) (h : addObject opts memory s url parse = some (s', some name))
    :
    (keys s'.servers).Perm ((name, url.take (maxPathLen - 1)) :: keys s.servers) := by
  have hs := run_valid hrun start_valid
  obtain ⟨-, -, ⟨hnone, -⟩ | ⟨split, hsplit, hname, hperm⟩⟩ := addObject_spec hs h
  · cases hnone
  · cases hname
    have hlong := (splitUrl_valid hsplit hs.base).2.2.2.2.not.mpr hurl
    have hnew : (split.server, split.path) ∉ keys s.servers := by
      intro hmem
      obtain ⟨server, hserver, -, hpath⟩ := mem_keys.mp hmem
      obtain ⟨object, hobject, heq⟩ := mem_map.mp hpath
      exact hlong (heq ▸ ((hs.servers server hserver).path object hobject).short)
    rw [if_neg hnew, (splitUrl_unterminated hsplit hurl).1] at hperm
    exact hperm

/-- In the later of two states names are distinct, each path is once at its server, an object of
the earlier one is in exactly one queue, and the counters count the finished queue. -/
theorem bookkeeping_consistent (opts : Options) : (∀ s s', Run opts Terminated start s → Run opts Terminated s s' →
      (s'.servers.map Server.name).Nodup ∧
      (∀ server ∈ s'.servers, ((queues server).flatten.map HttpObject.path).Nodup ∧
        server.objects + server.failedObjects = UInt32.ofNat server.finished.length) ∧
      ∀ server ∈ s.servers, ∀ object ∈ (queues server).flatten, ∃ server' ∈ s'.servers, server'.name = server.name ∧
          (queues server').countP (isObjectInQueue object.path) = 1) ∧
    ∀ threshold server server' r, selectPipeline threshold server = some (server', r) →
      (∀ pipelen, (selectPipeline threshold { server with pipelen := pipelen }).map Prod.snd = some r) ∧
        ∃ k, server'.pipelen = (lengths server).take k ++ server.pipelen.drop k ∧ ∀ i ∈ r, server.objects < 1 ∨ i < k := by
  refine ⟨fun s s' hrun hrun' => ?_, fun _ _ _ _ h => selectPipeline_counts h⟩
  have hs := run_valid hrun start_valid
  have hs' := run_valid hrun' hs
  have hnodup : (keys s'.servers).Nodup :=
    run_nodup (fun _ _ h => h) (hrun.trans hrun') start_valid nodup_nil
  refine ⟨hs'.names, fun server hserver =>
    ⟨paths_nodup hnodup hserver, (hs'.servers server hserver).counted⟩, ?_⟩
  intro server hserver object hobject
  have hkey : (server.name, object.path) ∈ keys s.servers :=
    mem_keys.mpr ⟨server, hserver, rfl, mem_map_of_mem hobject⟩
  obtain ⟨server', hserver', hname, hpath⟩ := mem_keys.mp (run_keys hrun' hs hkey)
  exact ⟨server', hserver', hname, countP_isObjectInQueue (paths_nodup hnodup hserver') hpath⟩

def pageOptions : Options := ⟨2, 2, true, 4⟩

def page : HttpObject := ⟨cstr "http://a", cstr "/", [], 0, true, none, 0, 0⟩

def pageStarted : HttpObject := { page with url := cstr "http://a/", handle := 1 }

def pageState (handles : ℕ) (change : Server → Server) : State :=
  ⟨[change (createServer pageOptions (cstr "http://a"))], some ⟨cstr "http://a", cstr "/", cstr "http"⟩, handles⟩

theorem splitUrl_page : splitUrl [] none (cstr "http://a/") true = some ⟨cstr "http://a", cstr "/",
    some ⟨cstr "http://a", cstr "/", cstr "http"⟩⟩ := rfl

theorem run_page : Run pageOptions Terminated start
    (pageState 1 fun server => { server with pipelines := [[pageStarted], []] }) := by
  have hadd : addObject pageOptions [] ⟨[], some ⟨cstr "http://a", cstr "/", cstr "http"⟩, 0⟩ (cstr "/") true =
        some (pageState 0 fun server => { server with pending := [page] }, some (cstr "http://a")) := by
    decide +kernel
  have hnext : nextObject pageOptions (pageState 0 fun server => { server with pending := [page] }) (some (cstr "http://a")) =
        some (pageState 1 fun server => { server with pipelines := [[pageStarted], []] }, some pageStarted) := by
    decide +kernel
  exact ((Relation.ReflTransGen.single (.option splitUrl_page)).tail (.add (by decide +kernel) hadd)).tail (.next hnext)

theorem page_in_one_queue : (queues { createServer pageOptions (cstr "http://a") with
      pipelines := [[pageStarted], []] }).countP (isObjectInQueue (cstr "/")) = 1 := by
  obtain ⟨server, hserver, -, hcount⟩ := ((bookkeeping_consistent pageOptions).1 _ _ run_page
    .refl).2.2 _ (mem_singleton_self _) pageStarted (by decide +kernel)
  rw [mem_singleton.mp hserver] at hcount
  exact hcount

theorem recorded_length_stale : ∃ s, Run pageOptions Terminated start s ∧
    s.servers.map Server.pipelen = [[0, 0]] ∧ s.servers.map lengths = [[1, 0]] :=
  ⟨_, run_page, by decide +kernel, by decide +kernel⟩

theorem saveStats_same (memory : CStr) (hs : StateValid s) (hnodup : (keys s.servers).Nodup)
    (hserver : server ∈ s.servers) (hobject : object ∈ server.pipelines.flatten) (code : ℤ) :
    ∃ s' i, saveStats memory s object.url code = some (s', { object with code := code, pipeline := UInt8.ofNat i }) := by
  have hvalid := hs.servers server hserver
  have hmem : object ∈ (queues server).flatten := mem_queues.mpr (Or.inr (Or.inr hobject))
  have hbase := hs.started (ne_nil_of_mem hserver)
  obtain ⟨rest, popped, i, hpop⟩ :=
    popFromPipelines_exists (mem_map_of_mem (f := HttpObject.path) hobject) 0
  obtain ⟨hpath, hperm⟩ := popFromPipelines_some hpop
  have hpopped : popped ∈ (queues server).flatten :=
    mem_queues.mpr (Or.inr (Or.inr (hperm.mem_iff.mpr (mem_cons_self ..))))
  obtain rfl : popped = object :=
    inj_on_of_nodup_map (paths_nodup hnodup hserver) hpopped hmem hpath
  have hsplit : splitUrl memory s.base popped.url false = some ⟨server.name, popped.path, s.base⟩ := by
    rw [hvalid.url popped hobject]
    exact splitUrl_append hvalid.named (hvalid.path popped hmem) memory hbase
  rw [saveStats, hsplit]
  dsimp only
  rw [findServer_of_mem hs.names hserver]
  dsimp only
  rw [hpop]
  exact ⟨_, i, rfl⟩

theorem object_found_again {opts : Options} {s : State} (hrun : Run opts Terminated start s)
    {server : Server} (hserver : server ∈ s.servers) {object : HttpObject}
    (hobject : object ∈ (queues server).flatten) (memory : CStr) :
    (∀ base : Option UrlBase, base.isSome → splitUrl memory base (object.serverName ++ object.path) false =
        some ⟨object.serverName, object.path, base⟩) ∧
    (object ∈ server.pipelines.flatten → ∀ code, ∃ s' i, saveStats memory s object.url code =
      some (s', { object with code := code, pipeline := UInt8.ofNat i })) := by
  have hs := run_valid hrun start_valid
  have hvalid := hs.servers server hserver
  constructor
  · intro base hbase
    rw [hvalid.owner object hobject]
    exact splitUrl_append hvalid.named (hvalid.path object hobject) memory hbase
  · intro hflying code
    have hnodup := run_nodup (fun _ _ h => h) hrun start_valid nodup_nil
    exact saveStats_same memory hs hnodup hserver hflying code

theorem page_found_again : ∃ s' i, saveStats [] (pageState 1 fun server => { server with pipelines := [[pageStarted], []] })
      (cstr "http://a/") 200 = some (s', { pageStarted with code := 200, pipeline := UInt8.ofNat i }) :=
  (object_found_again run_page (mem_singleton_self _) (mem_queues.mpr (Or.inr (Or.inr (mem_singleton_self _)))) []).2
    (mem_singleton_self _) 200

end Amplet.HttpBookkeeping
