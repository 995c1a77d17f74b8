import Amplet.AclRules
import Amplet.ArgumentVector
import Amplet.ControlFraming

/-!
# Requests on the control socket

Embedding of `process_control_message` in `src/measured/control.c` with
`do_start_server` and `do_single_test`, for a peer whose certificate has a common name.
Unpacking a packet is a parameter, and so is what a server leaves of the bytes of the
connection, from which it reads messages of its own. A test that runs takes the
connection and the process with it: `run_test` frees the one and ends in `exit`.
-/

namespace Amplet.ControlServer
open List Option AclPrecedence AclRules AclTree ArgumentVector Bytes ControlFraming LengthFraming ParamString
open SingleTest TargetLists TestSchedule

structure Message where
  type : Option ControlType
  test : Option TestRequest
  server : Option ServerRequest

inductive Effect
  | response (code : UInt32) (message : CStr)
  | server (test : Test) (argv : List (Option CStr))
  | test (item : TestItem) (params : ParamArrays)
  /-- a target without a name, or too few targets -/
  | aborted

def Effect.property : Effect → Option AclProperty
  | .response _ _ => none
  | .server _ _ => some .server
  | .test _ _ | .aborted => some .test

/-- The process ends with it. -/
def Effect.ends : Effect → Bool
  | .test _ _ | .aborted => true
  | _ => false

structure Host where
  env : Environment
  unpack : List UInt8 → Option Message
  socket : ControlSocket
  /-- the watchdog, the process name and the descriptor of the connection can be had -/
  available : Test → Bool
  /-- the watchdog and the memory for the arguments can be had, or `run_test` returns -/
  runnable : TestItem → Bool
  /-- what the server of a test leaves of the connection -/
  rest : Test → List BioEvent → List UInt8 → List BioEvent × List UInt8

def Host.left (host : Host) (effects : List Effect) (events : List BioEvent) (stream : List UInt8) : List BioEvent × List UInt8 :=
  effects.foldl (fun connection effect =>
    match effect with
    | .server test _ => host.rest test connection.1 connection.2
    | _ => connection) (events, stream)

def doStartServer (host : Host) (msg : Message) : List Effect :=
  match msg with
  | ⟨some .server, _, some ⟨some testType, params⟩⟩ =>
    match getTestById host.env.tests testType with
    | none => []
    | some test =>
      if test.serverCallback && host.available test then
        [.server test (startServerArgv host.socket test (parseParamString params))]
      else []
  | _ => []

def doSingleTest (host : Host) (msg : Message) : List Effect :=
  match parseSingleTest host.env (some ⟨msg.type, msg.test⟩) with
  | .refused => []
  | .aborted => [.aborted]
  | .accepted item arrays =>
    -- the assertion of run_test
    if item.test.minTargets.toNat ≤ item.total then
      if host.runnable item then [.test item arrays] else []
    else [.aborted]

/-- `permitted` tells the properties that the peer has; `none` for a message without a type. -/
def react (host : Host) (permitted : AclProperty → Bool) (msg : Message) : Option (List Effect) :=
  match msg.type with
  | none => none
  | some .server => some (
      if permitted .server then .response 200 (cstr "OK") :: doStartServer host msg
      else [.response 403 (cstr "Requires SERVER permissions")])
  | some .test => some (
      if permitted .test then .response 200 (cstr "OK") :: doSingleTest host msg
      else [.response 403 (cstr "Requires TEST permissions")])
  | some _ => some [.response 400 (cstr "Bad request")]

def checkAcl (acl : AclRoot) (commonName : CStr) (property : AclProperty) : Bool :=
  getAcl acl commonName (propertyByte property) ≠ 0

def processControlMessage (host : Host) (permitted : AclProperty → Bool) : ℕ → List BioEvent → List UInt8 → List Effect
  | 0, _, _ => []
  | n + 1, events, stream =>
    match readControlPacket events stream with
    | .waiting => []
    | .returned result data stream events =>
      if 0 < result then
        match (host.unpack data).bind (react host permitted) with
        | none => []
        | some effects =>
          if effects.any Effect.ends then effects
          else effects ++ processControlMessage host permitted n
            (host.left effects events stream).1 (host.left effects events stream).2
      else []

/-- The rule that decides about a name gives it the property. -/
def Granted (calls : List AclCall) (commonName : CStr) (property : AclProperty) : Bool :=
  (decisive calls property commonName).any fun rule => rule.value ≠ 0

section Permissions

variable {host : Host} {permitted : AclProperty → Bool} {msg : Message} {effects : List Effect}
  {effect : Effect} {property : AclProperty} {calls : List AclCall} {name : CStr}

theorem doStartServer_property (h : effect ∈ doStartServer host msg) : effect.property = some .server := by
  unfold doStartServer at h
  split at h
  · split at h
    · cases h
    · split_ifs at h
      · obtain rfl := mem_singleton.mp h
        rfl
      · cases h
  · cases h

theorem doSingleTest_property (h : effect ∈ doSingleTest host msg) : effect.property = some .test := by
  rw [doSingleTest] at h
  split at h
  · cases h
  · obtain rfl := mem_singleton.mp h
    rfl
  · split_ifs at h
    · obtain rfl := mem_singleton.mp h
      rfl
    · cases h
    · obtain rfl := mem_singleton.mp h
      rfl

theorem react_permitted (h : react host permitted msg = some effects) (heffect : effect ∈ effects)
    (hproperty : effect.property = some property) : permitted property = true := by
  have hresponse : ∀ code text, effect ≠ .response code text := by
    rintro code text rfl
    cases hproperty
  rw [react] at h
  split at h
  · cases h
  · cases h
    split_ifs at heffect with hserver
    · rcases mem_cons.mp heffect with heq | hmem
      · exact absurd heq (hresponse _ _)
      · obtain rfl := some.inj (hproperty.symm.trans (doStartServer_property hmem))
        exact hserver
    · exact absurd (mem_singleton.mp heffect) (hresponse _ _)
  · cases h
    split_ifs at heffect with htest
    · rcases mem_cons.mp heffect with heq | hmem
      · exact absurd heq (hresponse _ _)
      · obtain rfl := some.inj (hproperty.symm.trans (doSingleTest_property hmem))
        exact htest
    · exact absurd (mem_singleton.mp heffect) (hresponse _ _)
  · cases h
    exact absurd (mem_singleton.mp heffect) (hresponse _ _)

theorem processControlMessage_permitted {n : ℕ} {events : List BioEvent} {stream : List UInt8}
    (heffect : effect ∈ processControlMessage host permitted n events stream)
    (hproperty : effect.property = some property) : permitted property = true := by
  induction n generalizing events stream with
  | zero => cases heffect
  | succ n ih =>
    rw [processControlMessage] at heffect
    split at heffect
    · cases heffect
    · split_ifs at heffect
      · split at heffect
        · cases heffect
        next effects hreact =>
          obtain ⟨msg, -, hreact⟩ := bind_eq_some_iff.mp hreact
          split_ifs at heffect
          · exact react_permitted hreact heffect hproperty
          · rcases mem_append.mp heffect with hmem | hmem
            · exact react_permitted hreact hmem hproperty
            · exact ih hmem
      · cases heffect

theorem checkAcl_eq (hnarrow : ∀ property node, (childLabels (rulePaths calls property) node).card ≤ 255) :
    checkAcl (addCalls calls) name = Granted calls name := by
  funext property
  rw [checkAcl, Granted, getAcl_eq_lookup (hnarrow property), lookup_eq_decisive]
  cases decisive calls property name with
  | none => rfl
  | some rule => simp

end Permissions

/-- On any bytes, in any pieces, and whatever the servers before have read. -/
theorem started_only_if_granted {calls : List AclCall}
    (hnarrow : ∀ property node, (childLabels (rulePaths calls property) node).card ≤ 255) (host : Host)
    (commonName : CStr) (n : ℕ) (events : List BioEvent) (stream : List UInt8) {effect : Effect}
    (heffect : effect ∈ processControlMessage host (checkAcl (addCalls calls) commonName) n events stream)
    {property : AclProperty} (hproperty : effect.property = some property) :
    ∃ rule, decisive calls property commonName = some rule ∧ rule.value ≠ 0 := by
  have hgranted := processControlMessage_permitted heffect hproperty
  rw [checkAcl_eq hnarrow, Granted, Option.any_eq_true] at hgranted
  simpa using hgranted

def icmpHost : Host where
  env := icmpEnvironment
  unpack
    | [1] => some ⟨some .test, some ⟨some 2, [cstr "a!v4"], none⟩, none⟩
    | [2] => some ⟨some .server, none, some ⟨some 7, none⟩⟩
    | [3] => some ⟨some .result, none, none⟩
    | _ => none
  socket := ⟨none, none⟩
  available _ := true
  runnable _ := true
  rest _ _ _ := ([], [])

def icmpRules : List AclCall := [⟨cstr ".nz", .test, 1⟩]

theorem icmpRules_narrow (property : AclProperty) (node : List CStr) :
    (childLabels (rulePaths icmpRules property) node).card ≤ 255 :=
  (childLabels_card_le icmpRules property node).trans (by decide)

def icmpItem : TestItem :=
  { singleTestItem icmpTest (parseParamString none) with resolve := [⟨cstr "a", .inet, 0⟩] }

theorem test_started_for_granted_peer : .test icmpItem [parseParamString none] ∈
        processControlMessage icmpHost (checkAcl (addCalls icmpRules) (cstr "amp.nz")) 1 [.moved 3, .moved 0] (frame [1]) ∧
      ∃ rule, decisive icmpRules .test (cstr "amp.nz") = some rule ∧ rule.value ≠ 0 := by
  have hrun : processControlMessage icmpHost (checkAcl (addCalls icmpRules) (cstr "amp.nz")) 1 [.moved 3, .moved 0] (frame [1]) =
        [.response 200 (cstr "OK"), .test icmpItem [parseParamString none]] := by
    rw [checkAcl_eq icmpRules_narrow]
    rfl
  have hmem := hrun ▸ mem_cons_of_mem _ (mem_singleton_self _)
  exact ⟨hmem, started_only_if_granted icmpRules_narrow _ _ _ _ _ hmem rfl⟩

section Sessions

variable {host : Host} {permitted : AclProperty → Bool}

/-- What happens on messages, up to the first that ends the process or has no type. -/
def session (host : Host) (permitted : AclProperty → Bool) : List (List UInt8) → List Effect
  | [] => []
  | message :: messages =>
    match (host.unpack message).bind (react host permitted) with
    | none => []
    | some effects =>
      if effects.any Effect.ends then effects else effects ++ session host permitted messages

theorem left_of_no_server {effects : List Effect} (h : ∀ effect ∈ effects, effect.property ≠ some .server)
    (events : List BioEvent) (stream : List UInt8) : host.left effects events stream = (events, stream) := by
  rw [Host.left]
  induction effects with
  | nil => rfl
  | cons effect effects ih =>
    obtain ⟨heffect, hrest⟩ := forall_mem_cons.mp h
    cases effect with
    | server test argv => exact absurd rfl heffect
    | response code message | test item params | aborted => exact ih hrest

theorem processControlMessage_readPackets {n : ℕ} {events : List BioEvent} {stream : List UInt8}
    (h : ∀ effect ∈ session host permitted (readPackets n events stream), effect.property ≠ some .server) :
    processControlMessage host permitted n events stream = session host permitted (readPackets n events stream) := by
  induction n generalizing events stream with
  | zero => rfl
  | succ n ih =>
    rw [readPackets] at h ⊢
    rw [processControlMessage]
    cases hread : readControlPacket events stream with
    | waiting => rfl
    | returned result data stream events =>
      simp only [hread] at h
      dsimp only
      split_ifs at h ⊢
      · rw [session] at h ⊢
        cases hreact : (host.unpack data).bind (react host permitted) with
        | none => rfl
        | some effects =>
          simp only [hreact] at h
          dsimp only
          split_ifs at h ⊢
          · rfl
          · rw [forall_mem_append] at h
            rw [left_of_no_server h.1, ih h.2]
      · rfl

end Sessions

end Amplet.ControlServer
