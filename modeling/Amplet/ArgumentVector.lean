import Amplet.SingleTest

/-!
# Argument vectors

The `argv` arrays that `run_test` in `src/measured/run.c` and `do_start_server` in
`src/measured/control.c` fill: `MAX_TEST_ARGS` pointers on the stack, written from index
zero without a check; `none` is the terminating NULL. `asprintf` is taken to succeed.
-/

namespace Amplet.ArgumentVector
open List Bytes ParamString TargetLists

def maxTestArgs : ℕ := 128

def defaultControlPort : UInt32 := 8869

def unsignedDecimal (n : ℕ) : CStr := cstr (toString n)

def nullTerminated (args : List CStr) : List (Option CStr) := args.map some ++ [none]

def sourceArgs (flag : CStr) : Option CStr → List CStr
  | none => []
  | some source => if source ≠ cstr "any" then [flag, source] else [flag]

def globalArgs (controlPort : UInt32) (test : Test) (testMeta : TestMeta) : List CStr :=
  (if testMeta.interPacketDelay ≠ SingleTest.minInterPacketDelay then
    [cstr "-Z", unsignedDecimal testMeta.interPacketDelay.toNat] else []) ++
  (if test.serverCallback ∧ controlPort ≠ defaultControlPort then
    [cstr "-p", unsignedDecimal controlPort.toNat] else []) ++
  (if testMeta.dscp ≠ 0 then [cstr "-Q", unsignedDecimal testMeta.dscp.toNat] else []) ++
  (match testMeta.iface with
    | some iface => [cstr "-I", iface]
    | none => []) ++
  sourceArgs (cstr "-4") testMeta.sourcev4 ++ sourceArgs (cstr "-6") testMeta.sourcev6

def runTestArgv (controlPort : UInt32) (test : Test) (testMeta : TestMeta) (params : Option (List CStr)) : List (Option CStr) :=
  nullTerminated (test.name :: globalArgs controlPort test testMeta ++ params.getD [])

structure ControlSocket where
  device : Option CStr
  address : Option (Family × CStr)

def socketArgs (socket : ControlSocket) : List CStr :=
  (match socket.device with
    | some device => [cstr "-I", device]
    | none => []) ++
  (match socket.address with
    | some (.inet, addrstr) => [cstr "-4", addrstr]
    | some (.inet6, addrstr) => [cstr "-6", addrstr]
    | _ => [])

def startServerArgv (socket : ControlSocket) (test : Test) (testParams : Option (List CStr)) : List (Option CStr) :=
  nullTerminated (test.name :: socketArgs socket ++ testParams.getD [] ++ test.serverParams.getD [])

def Fits (argv : List (Option CStr)) : Prop := ∀ i < argv.length, i < maxTestArgs

theorem fits_nullTerminated (args : List CStr) : Fits (nullTerminated args) ↔ args.length < maxTestArgs := by
  have hlen : (nullTerminated args).length = args.length + 1 := by simp [nullTerminated]
  rw [Fits, hlen]
  exact ⟨fun h => h _ (Nat.lt_succ_self _), fun h i hi => by omega⟩

def sourceArgCount (source : Option CStr) : ℕ :=
  if source = none then 0 else if source = some (cstr "any") then 1 else 2

def globalArgCount (controlPort : UInt32) (test : Test) (testMeta : TestMeta) : ℕ :=
  (if testMeta.interPacketDelay = SingleTest.minInterPacketDelay then 0 else 2) +
    (if test.serverCallback ∧ controlPort ≠ defaultControlPort then 2 else 0) +
    (if testMeta.dscp = 0 then 0 else 2) + (if testMeta.iface = none then 0 else 2) +
    sourceArgCount testMeta.sourcev4 + sourceArgCount testMeta.sourcev6

def socketArgCount (socket : ControlSocket) : ℕ :=
  (if socket.device = none then 0 else 2) +
    match socket.address with
    | some (.inet, _) | some (.inet6, _) => 2
    | _ => 0

theorem sourceArgs_length (flag : CStr) (source : Option CStr) : (sourceArgs flag source).length = sourceArgCount source := by
  cases source with
  | none => rfl
  | some source =>
    rw [sourceArgs, sourceArgCount]
    split_ifs <;> simp_all

theorem globalArgs_length (controlPort : UInt32) (test : Test) (testMeta : TestMeta) :
    (globalArgs controlPort test testMeta).length = globalArgCount controlPort test testMeta := by
  have hiface : (match testMeta.iface with
      | some iface => [cstr "-I", iface]
      | none => []).length = if testMeta.iface = none then 0 else 2 := by
    cases testMeta.iface <;> rfl
  simp only [globalArgs, globalArgCount, length_append, sourceArgs_length, hiface, ite_not,
    apply_ite length, length_cons, length_nil, ne_eq]

theorem socketArgs_length (socket : ControlSocket) : (socketArgs socket).length = socketArgCount socket := by
  obtain ⟨device, address⟩ := socket
  rw [socketArgs, socketArgCount, length_append]
  cases device <;> rcases address with _ | ⟨_ | _ | _, _⟩ <;> rfl

theorem argv_fits_iff (controlPort : UInt32) (test : Test) (testMeta : TestMeta) (socket : ControlSocket) (params : Option CStr) :
    (Fits (runTestArgv controlPort test testMeta (parseParamString params)) ↔
      1 + globalArgCount controlPort test testMeta + ((parseParamString params).getD []).length < maxTestArgs) ∧
    (Fits (startServerArgv socket test (parseParamString params)) ↔
      1 + socketArgCount socket + ((parseParamString params).getD []).length +
        (test.serverParams.getD []).length < maxTestArgs) := by
  rw [runTestArgv, startServerArgv, fits_nullTerminated, fits_nullTerminated]
  simp only [length_cons, length_append, globalArgs_length, socketArgs_length]
  constructor <;> omega

def plainMeta : TestMeta := ⟨none, none, none, 100, 0⟩

def throughput : Test := ⟨6, cstr "throughput", 1, 1, true, none⟩

def letters (n : ℕ) : CStr := joinWords (replicate n (cstr "a"))

theorem parseParamString_letters {n : ℕ} (h : n ≠ 0) : parseParamString (some (letters n)) = some (replicate n (cstr "a")) := by
  refine parseParamString_joinWords (by simpa using h) fun w hw => ?_
  rw [eq_of_mem_replicate hw]
  exact ⟨by decide, by decide +kernel⟩

theorem argv_of_126_words_fits : Fits (runTestArgv defaultControlPort throughput plainMeta
      (parseParamString (some (letters 126)))) := by
  refine (argv_fits_iff defaultControlPort throughput plainMeta ⟨none, none⟩ (some (letters 126))).1.mpr ?_
  rw [parseParamString_letters (by decide), Option.getD_some, length_replicate]
  decide

theorem argv_of_127_words_overflows : (∃ words, parseParamString (some (letters 127)) = some words ∧ words.length < maxTestArgs) ∧
      ¬ Fits (runTestArgv defaultControlPort throughput plainMeta (parseParamString (some (letters 127)))) ∧
      ¬ Fits (startServerArgv ⟨none, none⟩ throughput (parseParamString (some (letters 127)))) := by
  rw [parseParamString_letters (by decide), runTestArgv, startServerArgv, fits_nullTerminated, fits_nullTerminated]
  simp only [length_cons, length_append, globalArgs_length, socketArgs_length, Option.getD_some, length_replicate]
  exact ⟨⟨_, rfl, by rw [length_replicate]; decide⟩, by decide, by decide⟩

end Amplet.ArgumentVector
