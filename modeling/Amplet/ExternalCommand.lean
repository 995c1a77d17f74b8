import Amplet.ScheduleChunks
import Amplet.ShellWords

/-!
# The command line of the external test

Embedding of `is_valid_command` and of the command string `run_external` in
`src/tests/external/external.c` gives to `popen`, and of the way a destination name
takes to it through `populate_target_lists` and `run_test`. The directory of the
programs is a constant of the build.
-/

namespace Amplet.ExternalCommand
open List Bytes TargetLists ShellWords

def isAlnum (c : UInt8) : Bool :=
  (48 ≤ c && c ≤ 57) || (65 ≤ c && c ≤ 90) || (97 ≤ c && c ≤ 122)

def isValidCommand (command : CStr) : Bool := !command.isEmpty && command.all isAlnum

/-- The format `"%s/%s %s"`, with an empty last part when there is no target. -/
def externalCommandLine (dir command : CStr) (target : Option CStr) : CStr :=
  dir ++ slash :: command ++ space :: target.getD []

/-- What the resolver answers, to a list of names. -/
abbrev Resolver := List ResolveDest → List AddrInfo

def testDestinations (resolver : Resolver) (item : TestItem) : List AddrInfo :=
  item.dests ++ if item.resolve = [] then [] else resolver item.resolve

def externalTarget (resolver : Resolver) (item : TestItem) : Option CStr :=
  (testDestinations resolver item).head?.map AddrInfo.canonname

def RunsOnlyProgram (dir command : CStr) (target : Option CStr) : Prop :=
  ∃ args, simpleCommand (externalCommandLine dir command target) = some ((dir ++ slash :: command) :: args) ∧
    (args = [] ∨ ∃ name, target = some name ∧ args = [name])

theorem isAlnum_ordinary {c : UInt8} (h : isAlnum c = true) :
    isOrdinary c = true ∧ c ≠ equals ∧ Bracket.next .outside c = some .outside := by
  have hall : ∀ n : Fin 256, isAlnum ⟨⟨n⟩⟩ = true → isOrdinary ⟨⟨n⟩⟩ = true ∧ (⟨⟨n⟩⟩ : UInt8) ≠ equals ∧
      Bracket.next .outside ⟨⟨n⟩⟩ = some .outside := by decide +kernel
  obtain ⟨⟨n⟩⟩ := c
  exact hall n h

theorem program_plain {dir command : CStr} (hdir : PlainWord dir)
    (hcommand : isValidCommand command = true) : PlainWord (dir ++ slash :: command) where
  ne_nil := by simp
  ordinary := by
    intro c hc
    simp only [isValidCommand, Bool.and_eq_true, all_eq_true] at hcommand
    rcases mem_append.mp hc with hc | hc
    · exact hdir.ordinary c hc
    · rcases mem_cons.mp hc with rfl | hc
      · rfl
      · exact (isAlnum_ordinary (hcommand.2 c hc)).1
  head := by
    obtain ⟨b, t, rfl⟩ := exists_cons_of_ne_nil hdir.ne_nil
    exact hdir.head
  brackets := by
    simp only [isValidCommand, Bool.and_eq_true, all_eq_true] at hcommand
    obtain ⟨bracket, hbracket⟩ := Option.ne_none_iff_exists'.mp hdir.brackets
    have hnext : bracket.next slash = some .outside := rfl
    have hrest : command.foldlM Bracket.next .outside = some .outside := by
      obtain ⟨-, hcommand⟩ := hcommand
      induction command with
      | nil => rfl
      | cons c command ih =>
        rw [foldlM_cons, (isAlnum_ordinary (hcommand c (mem_cons_self ..))).2.2]
        exact ih fun c hc => hcommand c (mem_cons_of_mem _ hc)
    rw [foldlM_append, hbracket]
    simp only [Option.bind_eq_bind, Option.bind_some, foldlM_cons, hnext, hrest, ne_eq, reduceCtorEq, not_false_eq_true]

theorem program_not_assignment {dir command : CStr} (hdir : equals ∉ dir)
    (hcommand : isValidCommand command = true) : equals ∉ dir ++ slash :: command := by
  simp only [isValidCommand, Bool.and_eq_true, all_eq_true] at hcommand
  intro hmem
  rcases mem_append.mp hmem with hmem | hmem
  · exact hdir hmem
  · rcases mem_cons.mp hmem with h | hmem
    · cases h
    · exact (isAlnum_ordinary (hcommand.2 _ hmem)).2.1 rfl

theorem program_not_reserved (dir command : CStr) : dir ++ slash :: command ∉ reserved := by
  have hslash : ∀ w ∈ reserved, slash ∉ w := by decide
  exact fun hmem => hslash _ hmem (by simp)

def TargetName (name : CStr) : Prop := name ≠ [] ∧ bang ∉ name

instance (name : CStr) : Decidable (TargetName name) := inferInstanceAs (Decidable (_ ∧ _))

theorem runs_only_program_iff {dir command : CStr} (hdir : PlainWord dir) (hequals : equals ∉ dir)
    (hcommand : isValidCommand command = true) (resolver : Resolver) (item : TestItem) :
    RunsOnlyProgram dir command (externalTarget resolver item) ↔ ∀ name, externalTarget resolver item = some name →
        PlainEnd name ∨ ignorable .blank name = true := by
  have hargs := arguments_iff (program_plain hdir hcommand)
    (program_not_assignment hequals hcommand) (program_not_reserved dir command)
  rw [RunsOnlyProgram, externalCommandLine]
  cases htarget : externalTarget resolver item with
  | none =>
    refine iff_of_true ?_ (by simp)
    obtain ⟨args, hread, hall⟩ := (hargs []).mpr (Or.inr rfl)
    have hnone : args = [] := by
      rw [simpleCommand_program (program_plain hdir hcommand)
        (program_not_assignment hequals hcommand) (program_not_reserved dir command)] at hread
      exact (cons.inj (Option.some.inj hread)).2.symm
    exact ⟨args, hread, Or.inl hnone⟩
  | some name => simpa using hargs name

def external : Test := ⟨12, cstr "external", 1, 0, false, none⟩

def externalItem : TestItem :=
  ⟨⟨0, 0⟩, ⟨0, 0⟩, 0, 0, .invalid, external, [], [], ⟨none, none, none, 100, 0⟩, none⟩

def dummyResolver : Resolver := fun queries => queries.map fun query => ⟨.inet, [], query.name⟩

theorem name_reaches {name : CStr} (hname : TargetName name) :
    ∃ item bufs, populateTargetLists [] externalItem (fun _ => name) (some [0]) =
        some (item, bufs, some []) ∧ externalTarget dummyResolver item = some name := by
  have hparse : parseTarget name = some (name, .unspec, 0) := by
    rw [parseTarget, strtok_of_not_mem hname.1 hname.2]
    rfl
  refine ⟨{ externalItem with resolve := [⟨name, .unspec, 0⟩] },
    Function.update (fun _ => name) 0 (strtokResidue [bang] name), ?_, rfl⟩
  have hroom : ({ externalItem with dests := [], resolve := [] } : TestItem).HasRoom := by decide
  rw [populateTargetLists, populateLoop, if_pos hroom, processTarget, hparse]
  rfl

def externalDirectory : CStr := cstr "/usr/lib/amplet2-client/external"

theorem externalDirectory_plain : PlainWord externalDirectory :=
  ⟨by decide, by decide +kernel, by decide, by decide⟩

theorem host_name_runs_program : RunsOnlyProgram externalDirectory (cstr "date") (some (cstr "example.com")) := by
  have hplain : PlainEnd (cstr "example.com") := .inl ⟨by decide, by decide +kernel, by decide, by decide⟩
  exact (runs_only_program_iff externalDirectory_plain (by decide) (by decide) dummyResolver
    { externalItem with resolve := [⟨cstr "example.com", .unspec, 0⟩] }).mpr
      fun name hname => Or.inl (Option.some.inj hname ▸ hplain)

theorem semicolon_starts_second_command : isValidCommand (cstr "date") = true ∧
      ∃ item bufs, populateTargetLists [] externalItem (fun _ => cstr "x;reboot") (some [0]) = some (item, bufs, some []) ∧
        externalTarget dummyResolver item = some (cstr "x;reboot") ∧
        externalCommandLine externalDirectory (cstr "date") (externalTarget dummyResolver item) =
          cstr "/usr/lib/amplet2-client/external/date x;reboot" ∧
        ¬ RunsOnlyProgram externalDirectory (cstr "date") (externalTarget dummyResolver item) := by
  have hname : TargetName (cstr "x;reboot") := by decide
  obtain ⟨item, bufs, hpop, htarget⟩ := name_reaches hname
  refine ⟨by decide, item, bufs, hpop, htarget, by rw [htarget]; decide, ?_⟩
  rw [htarget]
  rintro ⟨args, hread, -⟩
  have hnone : simpleCommand (externalCommandLine externalDirectory (cstr "date") (some (cstr "x;reboot"))) = none := by decide
  rw [hnone] at hread
  cases hread

end Amplet.ExternalCommand
