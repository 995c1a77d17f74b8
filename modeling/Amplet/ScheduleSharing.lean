import Amplet.ScheduleLimits
import Amplet.YamlTargets

/-!
# Shared scalars of a schedule file

Embedding of `read_schedule_file` and `parse_test_targets` in `src/measured/schedule.c`.
A scalar node is a cell with its text, and an alias is the same node. `strtok` writes to
target texts, hence a load changes the cells that later definitions read. A document
with aliases is one without with its cells renamed.
-/

namespace Amplet.ScheduleSharing
open List Bytes TargetLists TestSchedule ScheduleChunks

inductive YamlNode
  | scalar (cell : ℕ)
  | sequence (items : List YamlNode)
  | mapping (pairs : List (YamlNode × YamlNode))

namespace YamlNode
open List

mutual

def rename (f : ℕ → ℕ) : YamlNode → YamlNode
  | scalar cell => scalar (f cell)
  | sequence items => sequence (renameItems f items)
  | mapping pairs => mapping (renamePairs f pairs)

def renameItems (f : ℕ → ℕ) : List YamlNode → List YamlNode
  | [] => []
  | item :: items => item.rename f :: renameItems f items

def renamePairs (f : ℕ → ℕ) : List (YamlNode × YamlNode) → List (YamlNode × YamlNode)
  | [] => []
  | (key, value) :: pairs => (key.rename f, value.rename f) :: renamePairs f pairs

end

end YamlNode

open YamlNode

mutual

def parseTestTargets : YamlNode → List ℕ → List ℕ
  | .scalar cell, targets => targets ++ [cell]
  | .sequence items, targets => parseTestItems items targets
  | .mapping _, targets => targets

def parseTestItems : List YamlNode → List ℕ → List ℕ
  | [], targets => targets
  | item :: items, targets => parseTestItems items (parseTestTargets item targets)

end

mutual

/-- The tree below a node of the document. -/
def Unfolds (document : YamlTargets.YamlDocument) (i : Fin document.count) : YamlNode → Prop
  | .scalar cell => (∃ value, document.node i = .scalar value) ∧ cell = i
  | .sequence nodes => ∃ items, document.node i = .sequence items ∧ UnfoldsAll document items nodes
  | .mapping _ => ∃ pairs, document.node i = .mapping pairs

def UnfoldsAll (document : YamlTargets.YamlDocument) : List (Fin document.count) → List YamlNode → Prop
  | [], [] => True
  | i :: is, node :: nodes => Unfolds document i node ∧ UnfoldsAll document is nodes
  | _, _ => False

end

section Document

open YamlTargets (YamlDocument TargetArray Holds items scalars intMax)
open DepthFirstWalk (Walk)

variable {document : YamlDocument}

mutual

theorem exists_walk : ∀ {node : YamlNode} {i : Fin document.count}, Unfolds document i node →
    ∃ l, Walk (items document) (scalars document) [i] l ∧ ∀ targets, parseTestTargets node targets = targets ++ l
  | .scalar cell, i, ⟨⟨value, hnode⟩, hcell⟩ => by
    refine ⟨scalars document i ++ [], .leaf (by rw [items, hnode]) .nil, fun targets => ?_⟩
    rw [parseTestTargets, scalars, hnode, hcell, append_nil]
  | .sequence nodes, i, ⟨is, hnode, hall⟩ => by
    obtain ⟨l, hwalk, hparse⟩ := exists_walkItems hall
    exact ⟨l, .inner (by rw [items, hnode]) (by rwa [append_nil]), hparse⟩
  | .mapping pairs, i, ⟨_, hnode⟩ => by
    refine ⟨scalars document i ++ [], .leaf (by rw [items, hnode]) .nil, fun targets => ?_⟩
    rw [parseTestTargets, scalars, hnode, append_nil, append_nil]

theorem exists_walkItems : ∀ {nodes : List YamlNode} {is : List (Fin document.count)}, UnfoldsAll document is nodes →
    ∃ l, Walk (items document) (scalars document) is l ∧ ∀ targets, parseTestItems nodes targets = targets ++ l
  | [], [], _ => ⟨[], .nil, fun targets => (append_nil targets).symm⟩
  | node :: nodes, i :: is, ⟨hnode, hall⟩ => by
    obtain ⟨l₁, hwalk₁, hparse₁⟩ := exists_walk hnode
    obtain ⟨l₂, hwalk₂, hparse₂⟩ := exists_walkItems hall
    refine ⟨l₁ ++ l₂, hwalk₁.append hwalk₂, fun targets => ?_⟩
    rw [parseTestItems, hparse₁, hparse₂, append_assoc]

end

/-- The array that the code builds from the document has the targets of the tree. -/
theorem parseTestTargets_refines {node : YamlNode} {i : Fin document.count} {a : TargetArray} {targets : List ℕ}
    (h : Unfolds document i node) (ha : Holds a targets) (hlen : (parseTestTargets node targets).length < intMax) :
    ∃ levels a', YamlTargets.parseTestTargets document levels i a = .ok a' ∧ Holds a' (parseTestTargets node targets) := by
  obtain ⟨l, hwalk, hparse⟩ := exists_walk h
  rw [hparse] at hlen ⊢
  rw [length_append] at hlen
  exact YamlTargets.parseTestTargets_of_walk hwalk ha hlen

end Document

def scalarKeys : List (CStr × (CStr → TestDefinition → TestDefinition)) :=
  [(cstr "test", fun value d => { d with testname := some value }),
   (cstr "frequency", fun value d => { d with frequency := some (atoi value) }),
   (cstr "start", fun value d => { d with start := some (atoi value) }),
   (cstr "end", fun value d => { d with stop := some (atoi value) }),
   (cstr "period", fun value d => { d with period := some value }),
   (cstr "args", fun value d => { d with args := some value })]

inductive Reading
  | keys (d : TestDefinition)
  | ignored
  | aborted

/-- A key that is no scalar ends the definition; a value of the wrong kind fails an assertion. -/
def readKey (bufs : Buffers) (d : TestDefinition) : YamlNode × YamlNode → Reading
  | (.scalar key, value) =>
    match scalarKeys.lookup (bufs key) with
    | some assign =>
      match value with
      | .scalar cell => .keys (assign (bufs cell) d)
      | _ => .aborted
    | none =>
      if bufs key = cstr "target" then
        .keys { d with targets := some (parseTestTargets value (d.targets.getD [])) }
      else .keys d
  | _ => .ignored

def readKeys (bufs : Buffers) : TestDefinition → List (YamlNode × YamlNode) → Reading
  | d, [] => .keys d
  | d, pair :: pairs =>
    match readKey bufs d pair with
    | .keys d => readKeys bufs d pairs
    | stop => stop

def noKeys : TestDefinition := ⟨none, none, none, none, none, none, none⟩

def loadTest (env : Environment) (base : EventBase) (s : Schedule) : YamlNode → LoopResult
  | .mapping pairs =>
    match readKeys s.bufs noKeys pairs with
    | .keys d => createAndScheduleTest env base s d
    | .ignored => .returned s
    | .aborted => .aborted
  | _ => .returned s

def andThen (next : Schedule → LoopResult) : LoopResult → LoopResult
  | .returned s => next s
  | stop => stop

/-- `base n` is what libevent gives the test number `n` of the file. -/
def loadTests (env : Environment) (base : ℕ → EventBase) : ℕ → Schedule → List YamlNode → LoopResult
  | _, s, [] => .returned s
  | n, s, test :: tests =>
    andThen (fun s => loadTests env base (n + 1) s tests) (loadTest env (base n) s test)

def loadPairs (env : Environment) (base : ℕ → EventBase) : ℕ → Schedule → List (YamlNode × YamlNode) → LoopResult
  | _, s, [] => .returned s
  | n, s, (.scalar key, .sequence tests) :: pairs =>
    if s.bufs key = cstr "tests" then
      andThen (fun s => loadPairs env base (n + tests.length) s pairs) (loadTests env base n s tests)
    else loadPairs env base n s pairs
  | n, s, _ :: pairs => loadPairs env base n s pairs

/-- For a document that libyaml accepts; its scalars are the buffers of `s`. -/
def readScheduleFile (env : Environment) (base : ℕ → EventBase) (s : Schedule) : YamlNode → LoopResult
  | .mapping pairs => loadPairs env base 0 s pairs
  | _ => .returned s

inductive Access
  | read (cell : ℕ)
  | tokenise (cell : ℕ)

def readCells (text : Buffers) : YamlNode × YamlNode → List ℕ
  | (.scalar key, .scalar cell) =>
    if (scalarKeys.lookup (text key)).isSome then [key, cell] else [key]
  | (.scalar key, _) => [key]
  | _ => []

/-- Up to the key that ends the definition. -/
def keyCells (bufs : Buffers) : TestDefinition → List (YamlNode × YamlNode) → List ℕ
  | _, [] => []
  | d, pair :: pairs =>
    readCells bufs pair ++
      match readKey bufs d pair with
      | .keys d => keyCells bufs d pairs
      | _ => []

/-- A definition that is not admitted leaves its targets alone. -/
def targetCells (env : Environment) (s : Schedule) (d : TestDefinition) : List ℕ :=
  match admitTest env d (parseArgs s d).2 with
  | none => []
  | some _ => d.targets.getD []

def testAccesses (env : Environment) (s : Schedule) : YamlNode → List Access
  | .mapping pairs =>
    (keyCells s.bufs noKeys pairs).map .read ++
      match readKeys s.bufs noKeys pairs with
      | .keys d => (targetCells env s d).map .tokenise
      | _ => []
  | _ => []

def accessesBehind (more : Schedule → List Access) : LoopResult → List Access
  | .returned s => more s
  | _ => []

def testsAccesses (env : Environment) (base : ℕ → EventBase) : ℕ → Schedule → List YamlNode → List Access
  | _, _, [] => []
  | n, s, test :: tests =>
    testAccesses env s test ++ accessesBehind (fun s => testsAccesses env base (n + 1) s tests) (loadTest env (base n) s test)

def pairsAccesses (env : Environment) (base : ℕ → EventBase) : ℕ → Schedule → List (YamlNode × YamlNode) → List Access
  | _, _, [] => []
  | n, s, (.scalar key, .sequence tests) :: pairs =>
    .read key ::
      if s.bufs key = cstr "tests" then
        testsAccesses env base n s tests ++ accessesBehind (fun s => pairsAccesses env base (n + tests.length) s pairs)
            (loadTests env base n s tests)
      else pairsAccesses env base n s pairs
  | n, s, _ :: pairs => pairsAccesses env base n s pairs

/-- The scalars that a load reads and tokenises, in the order of the load. -/
def fileAccesses (env : Environment) (base : ℕ → EventBase) (s : Schedule) : YamlNode → List Access
  | .mapping pairs => pairsAccesses env base 0 s pairs
  | _ => []

def Access.cell : Access → ℕ
  | read cell | tokenise cell => cell

/-- What is tokenised is not looked at again. -/
def Apart : Access → Access → Prop
  | .tokenise c, later => c ≠ later.cell
  | .read _, _ => True

/-- The target has no option that counts. -/
def Plain (target : CStr) : Prop := ∀ p ∈ parseTarget target, p.2 = (.unspec, 0)

/-- A scalar that is looked at again gives the same after the tokenising. -/
def Rereads (f : ℕ → ℕ) (text : Buffers) : Access → Access → Prop
  | .tokenise c, .read d => f c = f d → strtokResidue [bang] (text (f d)) = text (f d)
  | .tokenise c, .tokenise d => f c = f d → Plain (text (f d))
  | .read _, _ => True

instance : DecidableRel Apart
  | .tokenise c, later => inferInstanceAs (Decidable (c ≠ later.cell))
  | .read _, _ => .isTrue trivial

instance (f : ℕ → ℕ) (text : Buffers) : DecidableRel (Rereads f text)
  | .tokenise c, .read d => inferInstanceAs (Decidable (f c = f d → _ = _))
  | .tokenise c, .tokenise d => inferInstanceAs (Decidable (f c = f d → ∀ p ∈ _, _))
  | .read _, _ => .isTrue trivial

def tokenised (accesses : List Access) : List ℕ :=
  accesses.filterMap fun
    | .tokenise c => some c
    | .read _ => none

/-- The buffers with shared scalars and without, after the targets `read` were tokenised. -/
structure Alike (f : ℕ → ℕ) (text : Buffers) (read : List ℕ) (bufs bufs' : Buffers) : Prop where
  fresh : ∀ c, c ∉ read → bufs' c = text (f c)
  shared : ∀ x, bufs x = text x ∨ (∃ c ∈ read, f c = x) ∧ bufs x = strtokResidue [bang] (text x)

/-- The accesses to come, after the targets `read`. -/
def Safe (f : ℕ → ℕ) (text : Buffers) (read : List ℕ) (accesses : List Access) : Prop :=
  (read.map Access.tokenise ++ accesses).Pairwise fun a b => Apart a b ∧ Rereads f text a b

section Targets

variable {f : ℕ → ℕ} {text : Buffers} {read : List ℕ} {accesses later : List Access} {bufs bufs' : Buffers}

theorem tokenised_append (accesses later : List Access) : tokenised (accesses ++ later) = tokenised accesses ++ tokenised later :=
  filterMap_append

theorem tokenised_reads (cells : List ℕ) : tokenised (cells.map .read) = [] := by
  simp [tokenised]

theorem tokenised_targets (cells : List ℕ) : tokenised (cells.map .tokenise) = cells := by
  simp [tokenised]

theorem tokenised_sublist (accesses : List Access) : ((tokenised accesses).map .tokenise).Sublist accesses := by
  induction accesses with
  | nil => exact .slnil
  | cons access accesses ih =>
    cases access with
    | read cell => exact ih.cons _
    | tokenise cell => exact ih.cons_cons _

theorem Safe.of_append (h : Safe f text read (accesses ++ later)) :
    Safe f text read accesses ∧ Safe f text (read ++ tokenised accesses) later := by
  refine ⟨Pairwise.sublist ?_ h, Pairwise.sublist ?_ h⟩
  · rw [← append_assoc]
    exact sublist_append_left ..
  · rw [map_append, ← append_assoc]
    exact ((tokenised_sublist accesses).append_left _).append_right _

theorem Safe.of_read {c : ℕ} (h : Safe f text read (.read c :: later)) : Safe f text read [.read c] ∧ Safe f text read later := by
  have happend : Safe f text read ([.read c] ++ later) := h
  simpa [tokenised] using happend.of_append

theorem Safe.access (h : Safe f text read accesses) {a : Access} (ha : a ∈ accesses) {c : ℕ} (hc : c ∈ read) :
    c ≠ a.cell ∧ Rereads f text (.tokenise c) a :=
  (pairwise_append.mp h).2.2 _ (mem_map_of_mem hc) a ha

theorem Alike.mono {more : List ℕ} (h : Alike f text read bufs bufs') (hsub : read ⊆ more) : Alike f text more bufs bufs' := by
  refine ⟨fun c hc => h.fresh c fun hread => hc (hsub hread), fun x => ?_⟩
  rcases h.shared x with hx | ⟨⟨c, hc, hfc⟩, hx⟩
  · exact Or.inl hx
  · exact Or.inr ⟨⟨c, hsub hc, hfc⟩, hx⟩

section

variable (h : Alike f text read bufs bufs') (hsafe : Safe f text read accesses)
include h hsafe

theorem Alike.read_eq {c : ℕ} (hc : .read c ∈ accesses) : bufs (f c) = bufs' c := by
  rw [h.fresh c fun hread => (hsafe.access hc hread).1 rfl]
  rcases h.shared (f c) with hx | ⟨⟨d, hd, hfd⟩, hx⟩
  · exact hx
  · rw [hx]
    exact (hsafe.access hc hd).2 hfd

omit h hsafe in
theorem Plain.parseTarget_residue {target : CStr} (h : Plain target) :
    parseTarget (strtokResidue [bang] target) = parseTarget target := by
  cases htarget : strtok [bang] target with
  | none =>
    have hall : ∀ b ∈ target, b ∈ [bang] := strtok_eq_none_iff.mp htarget
    have hresidue : strtokResidue [bang] target = target := by
      rw [strtokResidue, takeWhile_eq_self_iff.mpr (by simpa using hall),
        dropWhile_eq_nil_iff.mpr (by simpa using hall), takeWhile_nil, append_nil]
    rw [hresidue]
  | some token =>
    have hfirst : parseTarget target = some (token.1, (Delimited.tokens bang token.2).foldl parseOption (.unspec, 0)) := by
      rw [parseTarget, htarget]
    have hoptions : (Delimited.tokens bang token.2).foldl parseOption (.unspec, 0) = (.unspec, 0) := h _ hfirst
    rw [hfirst, hoptions, parseTarget, strtok_strtokResidue htarget]
    rfl

theorem Alike.parseTarget_eq {c : ℕ} (hc : .tokenise c ∈ accesses) : parseTarget (bufs (f c)) = parseTarget (bufs' c) := by
  rw [h.fresh c fun hread => (hsafe.access hc hread).1 rfl]
  rcases h.shared (f c) with hx | ⟨⟨d, hd, hfd⟩, hx⟩
  · rw [hx]
  · have hplain : Plain (text (f c)) := (hsafe.access hc hd).2 hfd
    rw [hx, hplain.parseTarget_residue]

end

section

variable (h : Alike f text read bufs bufs')
include h

theorem Alike.tokenised (c : ℕ) : Alike f text (read ++ [c]) (Function.update bufs (f c) (strtokResidue [bang] (bufs (f c))))
      (Function.update bufs' c (strtokResidue [bang] (bufs' c))) := by
  refine ⟨fun d hd => ?_, fun x => ?_⟩
  · simp only [mem_append, mem_singleton, not_or] at hd
    rw [Function.update_of_ne hd.2, h.fresh d hd.1]
  · by_cases hx : x = f c
    · subst hx
      refine Or.inr ⟨⟨c, by simp, rfl⟩, ?_⟩
      rw [Function.update_self]
      rcases h.shared (f c) with hx | ⟨-, hx⟩
      · rw [hx]
      · rw [hx, strtokResidue_strtokResidue]
    · rw [Function.update_of_ne hx]
      rcases h.shared x with hx | ⟨⟨d, hd, hfd⟩, hx⟩
      · exact Or.inl hx
      · exact Or.inr ⟨⟨d, by simp [hd], hfd⟩, hx⟩

theorem processTarget_alike {c : ℕ} (hsafe : Safe f text read accesses) (hc : .tokenise c ∈ accesses)
    (table : List NametableItem) (item : TestItem) :
    (processTarget table (item, bufs) (f c) = none ∧ processTarget table (item, bufs') c = none) ∨
    ∃ item' b b', processTarget table (item, bufs) (f c) = some (item', b) ∧
      processTarget table (item, bufs') c = some (item', b') ∧
      Alike f text (read ++ [c]) b b' := by
  have hparse := h.parseTarget_eq hsafe hc
  cases hp : parseTarget (bufs' c) with
  | none => exact Or.inl ⟨by simp [processTarget, hparse, hp], by simp [processTarget, hp]⟩
  | some p =>
    exact Or.inr ⟨_, _, _, by simp only [processTarget, hparse, hp]; rfl, by simp only [processTarget, hp], h.tokenised c⟩

theorem populateLoop_alike {cells : List ℕ} (hsafe : Safe f text read (cells.map .tokenise))
    (table : List NametableItem) (item : TestItem) :
    (populateLoop table (item, bufs) (cells.map f) = none ∧ populateLoop table (item, bufs') cells = none) ∨
    ∃ item' b b' taken rest, cells = taken ++ rest ∧ populateLoop table (item, bufs) (cells.map f) = some (item', b, rest.map f) ∧
      populateLoop table (item, bufs') cells = some (item', b', rest) ∧
      Alike f text (read ++ taken) b b' := by
  induction cells generalizing item bufs bufs' read with
  | nil => exact Or.inr ⟨item, bufs, bufs', [], [], rfl, rfl, rfl, by simpa using h⟩
  | cons c cells ih =>
    simp only [map_cons, populateLoop]
    by_cases hroom : item.HasRoom
    · simp only [hroom, if_true]
      have hcells : Safe f text read ([.tokenise c] ++ cells.map .tokenise) := hsafe
      have hfirst := hcells.of_append
      rcases processTarget_alike h hfirst.1 (mem_singleton_self _) table item with
        ⟨hnone, hnone'⟩ | ⟨item₁, b, b', hsome, hsome', halike⟩
      · exact Or.inl ⟨by rw [hnone], by rw [hnone']⟩
      · rw [hsome, hsome']
        rcases ih halike hfirst.2 item₁ with hnone | ⟨item₂, b₂, b₂', taken, rest, rfl, hloop, hloop', halike⟩
        · exact Or.inl hnone
        · exact Or.inr ⟨item₂, b₂, b₂', c :: taken, rest, rfl, hloop, hloop', by simpa using halike⟩
    · simp only [hroom, if_false]
      exact Or.inr ⟨item, bufs, bufs', [], c :: cells, rfl, rfl, rfl, by simpa using h⟩

theorem populateTargetLists_alike {targets : Option (List ℕ)}
    (hsafe : Safe f text read ((targets.getD []).map .tokenise)) (table : List NametableItem) (item : TestItem) :
    (populateTargetLists table item bufs (targets.map (map f)) = none ∧ populateTargetLists table item bufs' targets = none) ∨
    ∃ item' b b' taken rest, targets.getD [] = taken ++ rest.getD [] ∧ populateTargetLists table item bufs (targets.map (map f)) =
        some (item', b, rest.map (map f)) ∧
      populateTargetLists table item bufs' targets = some (item', b', rest) ∧
      Alike f text (read ++ taken) b b' := by
  cases targets with
  | none => exact Or.inr ⟨_, bufs, bufs', [], none, rfl, rfl, rfl, by simpa using h⟩
  | some cells =>
    rw [Option.getD_some] at hsafe
    rcases populateLoop_alike h hsafe table { item with dests := [], resolve := [] } with
      ⟨hnone, hnone'⟩ | ⟨item', b, b', taken, rest, hsplit, hloop, hloop', halike⟩
    · exact Or.inl ⟨by simp [populateTargetLists, hnone], by simp [populateTargetLists, hnone']⟩
    · exact Or.inr ⟨item', b, b', taken, some rest, hsplit,
        by simp [populateTargetLists, hloop], by simp [populateTargetLists, hloop'], halike⟩

end

end Targets

structure Similar (f : ℕ → ℕ) (text : Buffers) (read : List ℕ) (s s' : Schedule) : Prop where
  items : s.items = s'.items
  arrays : s.arrays = s'.arrays
  bufs : Alike f text read s.bufs s'.bufs

inductive Related (f : ℕ → ℕ) (text : Buffers) (read : List ℕ) : LoopResult → LoopResult → Prop
  | returned {s s' : Schedule} (h : Similar f text read s s') :
      Related f text read (.returned s) (.returned s')
  | aborted : Related f text read .aborted .aborted

def renameTurn (f : ℕ → ℕ) (bufs : Buffers) : Turn → Turn
  | .done s => .done { s with bufs := bufs }
  | .more s rest => .more { s with bufs := bufs } (rest.map f)

theorem placeTest_rename (base : EventBase) (s : Schedule) (test : TestItem) (f : ℕ → ℕ)
    (bufs : Buffers) (remaining : Option (List ℕ)) :
    placeTest base { s with bufs := bufs } test (remaining.map (map f)) =
      (placeTest base s test remaining).map (renameTurn f bufs) := by
  have hlast : remaining.map (map f) = some [] ↔ remaining = some [] := by
    cases remaining <;> simp
  have hmerge : mergeScheduledTests base { s with bufs := bufs } test =
      mergeScheduledTests base s test := rfl
  unfold placeTest
  by_cases hfew : test.total < test.test.minTargets.toNat
  · simp only [hfew, if_true, Option.map_map]
    rfl
  · simp only [hfew, if_false, hlast, hmerge]
    generalize (if remaining = some [] ∧ test.test.maxTargets ≠ 1 then
      mergeScheduledTests base s test else some none) = merged
    rcases merged with _ | _ | items
    · rfl
    · rcases remaining with _ | _ | ⟨target, targets⟩ <;> rfl
    · simp only [Option.map_map]
      rfl

theorem placed_bufs {base : EventBase} {s s' : Schedule} {test : TestItem}
    {remaining : Option (List ℕ)} (h : Placed base s test remaining s') : s'.bufs = s.bufs := by
  cases h with
  | dropped _ _ _ result => rw [result]
  | merged _ _ _ _ _ _ _ result => rw [result]
  | added _ _ _ result => rw [result]

section Load

variable {f : ℕ → ℕ} {text : Buffers} {read : List ℕ} {s s' : Schedule}

theorem Similar.mono {more : List ℕ} (h : Similar f text read s s') (hsub : read ⊆ more) : Similar f text more s s' :=
  ⟨h.items, h.arrays, h.bufs.mono hsub⟩

theorem Related.andThen {r r' : LoopResult} {next next' : Schedule → LoopResult} {more : Schedule → List Access}
    (h : Related f text read r r') (hsafe : Safe f text read (accessesBehind more r'))
    (hnext : ∀ {s s' : Schedule}, Similar f text read s s' → Safe f text read (more s') →
      Related f text (read ++ tokenised (more s')) (next s) (next' s')) :
    Related f text (read ++ tokenised (accessesBehind more r')) (andThen next r) (andThen next' r') := by
  cases h with
  | returned hsim => exact hnext hsim hsafe
  | aborted => exact .aborted

theorem scheduleLoop_related (env : Environment) (base : EventBase) (template : TestItem) (n : ℕ)
    (h : Similar f text read s s') {targets : Option (List ℕ)}
    (hsafe : Safe f text read ((targets.getD []).map .tokenise))
    (hends : scheduleLoop env base template n s' targets ≠ .unfinished) :
    Related f text (read ++ targets.getD []) (scheduleLoop env base template n s (targets.map (map f)))
      (scheduleLoop env base template n s' targets) := by
  induction n generalizing s s' read targets with
  | zero => exact absurd rfl hends
  | succ n ih =>
    rw [scheduleLoop, scheduleTurn] at hends
    rw [scheduleLoop, scheduleLoop, scheduleTurn, scheduleTurn]
    rcases populateTargetLists_alike h.bufs hsafe env.table template with
      ⟨hnone, hnone'⟩ | ⟨test, b, b', taken, rest, hsplit, hpop, hpop', halike⟩
    · rw [hnone, hnone']
      exact .aborted
    · have hs : ({ s with bufs := b } : Schedule) =
          { ({ s' with bufs := b' } : Schedule) with bufs := b } := by
        rw [← h.items, ← h.arrays]
      rw [hpop'] at hends
      rw [hpop, hpop']
      dsimp only at hends ⊢
      rw [hs, placeTest_rename]
      have hsub : read ++ taken ⊆ read ++ targets.getD [] := by
        rw [hsplit, ← append_assoc]
        exact subset_append_left _ _
      cases hplace : placeTest base { s' with bufs := b' } test rest with
      | none => exact .aborted
      | some turn =>
        cases turn with
        | done s₁ =>
          have hbufs : s₁.bufs = b' := placed_bufs (placeTest_done hplace)
          exact .returned (Similar.mono ⟨rfl, rfl, by rw [hbufs]; exact halike⟩ hsub)
        | more s₁ rest₁ =>
          obtain ⟨rfl, -, -, rfl⟩ := placeTest_more hplace
          rw [hsplit, Option.getD_some, map_append] at hsafe
          have hrest : Safe f text (read ++ tokenised (taken.map .tokenise)) (((some rest₁).getD []).map .tokenise) :=
            hsafe.of_append.2
          rw [tokenised_targets] at hrest
          have hsim : Similar f text (read ++ taken)
              { s' with items := s'.items ++ [scheduleItem base test], bufs := b }
              { s' with items := s'.items ++ [scheduleItem base test], bufs := b' } :=
            ⟨rfl, rfl, halike⟩
          rw [hplace] at hends
          have hnext := ih hsim hrest hends
          rw [hsplit, ← append_assoc]
          exact hnext

def renameTargets (f : ℕ → ℕ) (d : TestDefinition) : TestDefinition :=
  { d with targets := d.targets.map (map f) }

theorem parseArgs_similar (h : Similar f text read s s') (d : TestDefinition) :
    Similar f text read (parseArgs s (renameTargets f d)).1 (parseArgs s' d).1 ∧
      (parseArgs s (renameTargets f d)).2 = (parseArgs s' d).2 := by
  have hargs : (renameTargets f d).args = d.args := rfl
  unfold parseArgs
  rw [hargs]
  cases d.args with
  | none => exact ⟨h, rfl⟩
  | some args =>
    dsimp only
    cases ParamString.parseParamString (some args) with
    | none => exact ⟨h, rfl⟩
    | some words => exact ⟨⟨h.items, by simp [h.arrays], h.bufs⟩, by simp [h.arrays]⟩

theorem createAndScheduleTest_related (env : Environment) (base : EventBase) (h : Similar f text read s s')
    {d : TestDefinition} (hsafe : Safe f text read ((targetCells env s' d).map .tokenise)) :
    Related f text (read ++ targetCells env s' d)
      (createAndScheduleTest env base s (renameTargets f d)) (createAndScheduleTest env base s' d) := by
  obtain ⟨hsim, hparams⟩ := parseArgs_similar h d
  have hadmit : admitTest env (renameTargets f d) (parseArgs s (renameTargets f d)).2 = admitTest env d (parseArgs s' d).2 := by
    rw [hparams]
    rfl
  have hturns : turns (renameTargets f d).targets = turns d.targets := by
    cases htargets : d.targets <;> simp [renameTargets, turns, htargets]
  rw [createAndScheduleTest, createAndScheduleTest, hadmit, hturns]
  rw [targetCells] at hsafe ⊢
  cases hadmitted : admitTest env d (parseArgs s' d).2 with
  | none => exact .returned (hsim.mono (subset_append_left _ _))
  | some template =>
    rw [hadmitted] at hsafe
    exact scheduleLoop_related env base template _ hsim hsafe
      (ScheduleLimits.scheduleLoop_ends env base template _ d.targets le_rfl le_rfl).2

end Load

mutual

theorem parseTestTargets_rename (f : ℕ → ℕ) : ∀ (node : YamlNode) (targets : List ℕ),
    parseTestTargets (node.rename f) (targets.map f) = (parseTestTargets node targets).map f
  | .scalar cell, targets => by simp [rename, parseTestTargets]
  | .sequence items, targets => by
    simpa only [rename, parseTestTargets] using parseTestItems_rename f items targets
  | .mapping pairs, targets => by simp [rename, parseTestTargets]

theorem parseTestItems_rename (f : ℕ → ℕ) : ∀ (items : List YamlNode) (targets : List ℕ),
    parseTestItems (renameItems f items) (targets.map f) = (parseTestItems items targets).map f
  | [], targets => by simp [renameItems, parseTestItems]
  | item :: items, targets => by
    simp only [renameItems, parseTestItems]
    rw [parseTestTargets_rename f item targets]
    exact parseTestItems_rename f items (parseTestTargets item targets)

end

def renameReading (f : ℕ → ℕ) : Reading → Reading
  | .keys d => .keys (renameTargets f d)
  | .ignored => .ignored
  | .aborted => .aborted

theorem scalarKeys_rename {key : CStr} {assign : CStr → TestDefinition → TestDefinition}
    (h : scalarKeys.lookup key = some assign) (f : ℕ → ℕ) (value : CStr) (d : TestDefinition) :
    assign value (renameTargets f d) = renameTargets f (assign value d) := by
  simp only [scalarKeys, lookup_cons] at h
  repeat' split at h
  all_goals cases h
  all_goals rfl

theorem mem_readCells_key (text : Buffers) (key : ℕ) (value : YamlNode) : key ∈ readCells text (.scalar key, value) := by
  cases value with
  | scalar cell =>
    simp only [readCells]
    split <;> simp
  | sequence items => simp [readCells]
  | mapping pairs => simp [readCells]

theorem readKey_congr {text bufs : Buffers} {pair : YamlNode × YamlNode}
    (h : ∀ c ∈ readCells text pair, bufs c = text c) (d : TestDefinition) :
    readKey bufs d pair = readKey text d pair := by
  obtain ⟨key, value⟩ := pair
  cases key with
  | sequence items => rfl
  | mapping pairs => rfl
  | scalar key =>
    simp only [readKey, h key (mem_readCells_key text key value)]
    cases hset : scalarKeys.lookup (text key) with
    | none => rfl
    | some assign =>
      cases value with
      | scalar cell =>
        have hcell : bufs cell = text cell := h cell (by simp [readCells, hset])
        simp only [hcell]
      | sequence items => rfl
      | mapping pairs => rfl

theorem readKeys_congr {bufs bufs' : Buffers} {pairs : List (YamlNode × YamlNode)} {d : TestDefinition}
    (h : ∀ c ∈ keyCells bufs' d pairs, bufs c = bufs' c) : readKeys bufs d pairs = readKeys bufs' d pairs := by
  induction pairs generalizing d with
  | nil => rfl
  | cons pair pairs ih =>
    rw [keyCells, forall_mem_append] at h
    rw [readKeys, readKeys, readKey_congr h.1]
    cases hkey : readKey bufs' d pair with
    | keys d =>
      rw [hkey] at h
      exact ih h.2
    | ignored => rfl
    | aborted => rfl

theorem readKey_rename (bufs : Buffers) (f : ℕ → ℕ) (pair : YamlNode × YamlNode) (d : TestDefinition) :
    readKey bufs (renameTargets f d) (pair.1.rename f, pair.2.rename f) =
      renameReading f (readKey (fun c => bufs (f c)) d pair) := by
  obtain ⟨key, value⟩ := pair
  cases key with
  | sequence items => rfl
  | mapping pairs => rfl
  | scalar key =>
    simp only [rename, readKey]
    cases hset : scalarKeys.lookup (bufs (f key)) with
    | some assign =>
      cases value with
      | scalar cell => simp only [rename, renameReading, scalarKeys_rename hset]
      | sequence items => rfl
      | mapping pairs => rfl
    | none =>
      dsimp only
      split_ifs
      · have htargets : (renameTargets f d).targets.getD [] = (d.targets.getD []).map f := by
          cases hd : d.targets <;> simp [renameTargets, hd]
        rw [htargets, parseTestTargets_rename]
        rfl
      · rfl

theorem readKeys_rename (bufs : Buffers) (f : ℕ → ℕ) (pairs : List (YamlNode × YamlNode)) (d : TestDefinition) :
    readKeys bufs (renameTargets f d) (renamePairs f pairs) = renameReading f (readKeys (fun c => bufs (f c)) d pairs) := by
  induction pairs generalizing d with
  | nil => rfl
  | cons pair pairs ih =>
    have hpair := readKey_rename bufs f pair d
    simp only [renamePairs, readKeys, hpair]
    cases readKey (fun c => bufs (f c)) d pair with
    | keys d => exact ih d
    | ignored => rfl
    | aborted => rfl

section File

variable {f : ℕ → ℕ} {text : Buffers} {read : List ℕ} {s s' : Schedule}

theorem loadTest_related (env : Environment) (base : EventBase) (h : Similar f text read s s') {test : YamlNode}
    (hsafe : Safe f text read (testAccesses env s' test)) :
    Related f text (read ++ tokenised (testAccesses env s' test))
      (loadTest env base s (test.rename f)) (loadTest env base s' test) := by
  cases test with
  | scalar cell => exact .returned (h.mono (subset_append_left _ _))
  | sequence items => exact .returned (h.mono (subset_append_left _ _))
  | mapping pairs =>
    rw [testAccesses] at hsafe ⊢
    obtain ⟨hreads, htargets⟩ := hsafe.of_append
    have hkeys : readKeys s.bufs noKeys (renamePairs f pairs) = renameReading f (readKeys s'.bufs noKeys pairs) := by
      have hcongr : readKeys (fun c => s.bufs (f c)) noKeys pairs = readKeys s'.bufs noKeys pairs :=
        readKeys_congr fun c hc => h.bufs.read_eq hreads (mem_map_of_mem hc)
      rw [← hcongr, ← readKeys_rename]
      rfl
    rw [tokenised_append, tokenised_reads, nil_append]
    rw [tokenised_reads, append_nil] at htargets
    simp only [rename, loadTest, hkeys]
    cases hread : readKeys s'.bufs noKeys pairs with
    | keys d =>
      rw [hread] at htargets
      dsimp only at htargets ⊢
      rw [tokenised_targets]
      exact createAndScheduleTest_related env base h htargets
    | ignored => exact .returned (h.mono (subset_append_left _ _))
    | aborted => exact .aborted

theorem loadTests_related (env : Environment) (base : ℕ → EventBase) (n : ℕ) (h : Similar f text read s s')
    {tests : List YamlNode} (hsafe : Safe f text read (testsAccesses env base n s' tests)) :
    Related f text (read ++ tokenised (testsAccesses env base n s' tests))
      (loadTests env base n s (renameItems f tests)) (loadTests env base n s' tests) := by
  induction tests generalizing n read s s' with
  | nil => exact .returned (h.mono (subset_append_left _ _))
  | cons test tests ih =>
    rw [testsAccesses] at hsafe ⊢
    obtain ⟨hfirst, hmore⟩ := hsafe.of_append
    rw [renameItems, loadTests, loadTests, tokenised_append, ← append_assoc]
    exact (loadTest_related env (base n) h hfirst).andThen hmore fun hsim hsafe => ih (n + 1) hsim hsafe

theorem length_renameItems (f : ℕ → ℕ) (items : List YamlNode) : (renameItems f items).length = items.length := by
  induction items with
  | nil => rfl
  | cons item items ih => simp [renameItems, ih]

theorem loadPairs_related (env : Environment) (base : ℕ → EventBase) (n : ℕ) (h : Similar f text read s s')
    {pairs : List (YamlNode × YamlNode)} (hsafe : Safe f text read (pairsAccesses env base n s' pairs)) :
    Related f text (read ++ tokenised (pairsAccesses env base n s' pairs))
      (loadPairs env base n s (renamePairs f pairs)) (loadPairs env base n s' pairs) := by
  induction pairs generalizing n read s s' with
  | nil => exact .returned (h.mono (subset_append_left _ _))
  | cons pair pairs ih =>
    match pair with
    | (.scalar key, .sequence tests) =>
      rw [pairsAccesses] at hsafe ⊢
      obtain ⟨hkey, hmore⟩ := hsafe.of_read
      simp only [renamePairs, rename, loadPairs, h.bufs.read_eq hkey (mem_singleton_self _)]
      have htokenised (accesses : List Access) : tokenised (.read key :: accesses) = tokenised accesses := rfl
      rw [htokenised, length_renameItems]
      split_ifs at hmore ⊢ with htests
      · obtain ⟨hfirst, hrest⟩ := hmore.of_append
        rw [tokenised_append, ← append_assoc]
        exact (loadTests_related env base n h hfirst).andThen hrest fun hsim hsafe => ih _ hsim hsafe
      · exact ih n h hmore
    | (.scalar key, .scalar _) | (.scalar key, .mapping _) | (.sequence _, _) | (.mapping _, _) =>
      exact ih n h hsafe

end File

inductive SameItems : LoopResult → LoopResult → Prop
  | returned {s s' : Schedule} (items : s.items = s'.items) (arrays : s.arrays = s'.arrays) :
      SameItems (.returned s) (.returned s')
  | aborted : SameItems .aborted .aborted

theorem readScheduleFile_sameItems (env : Environment) (base : ℕ → EventBase) (s : Schedule) {file : YamlNode}
    {f : ℕ → ℕ} {text : Buffers}
    (hsafe : Safe f text [] (fileAccesses env base { s with bufs := fun c => text (f c) } file)) :
    SameItems (readScheduleFile env base { s with bufs := text } (file.rename f))
      (readScheduleFile env base { s with bufs := fun c => text (f c) } file) := by
  have hstart : Similar f text [] { s with bufs := text } { s with bufs := fun c => text (f c) } :=
    ⟨rfl, rfl, fun _ _ => rfl, fun _ => Or.inl rfl⟩
  cases file with
  | scalar cell => exact .returned rfl rfl
  | sequence items => exact .returned rfl rfl
  | mapping pairs =>
    have hload := loadPairs_related env base 0 hstart hsafe
    simp only [rename, readScheduleFile]
    generalize loadPairs env base 0 _ (renamePairs f pairs) = r at hload ⊢
    generalize loadPairs env base 0 _ pairs = r' at hload ⊢
    cases hload with
    | returned hsim => exact .returned hsim.items hsim.arrays
    | aborted => exact .aborted

/-- A definition with a test, other keys and a target. -/
def testWith (keys : List (YamlNode × YamlNode)) (target : ℕ) : YamlNode :=
  .mapping ((.scalar 1, .scalar 2) :: keys ++ [(.scalar 3, .scalar target)])

def fileOf (tests : List YamlNode) : YamlNode := .mapping [(.scalar 0, .sequence tests)]

def fileText (first second : CStr) : Buffers
  | 0 => cstr "tests"
  | 1 => cstr "test"
  | 2 => cstr "fastping"
  | 3 => cstr "target"
  | 4 => cstr "period"
  | 5 => cstr "bogus"
  | 6 => first
  | _ => second

/-- A file with aliases loads like the file without, when no scalar that was tokenised gives
something else where it is looked at again. -/
theorem items_independent_of_sharing (env : Environment) (base : ℕ → EventBase) (s : Schedule) (file : YamlNode)
    (f : ℕ → ℕ) (text : Buffers)
    (hfile : (fileAccesses env base { s with bufs := fun c => text (f c) } file).Pairwise Apart)
    (hsafe : (fileAccesses env base { s with bufs := fun c => text (f c) } file).Pairwise (Rereads f text)) :
    SameItems (readScheduleFile env base { s with bufs := text } (file.rename f))
      (readScheduleFile env base { s with bufs := fun c => text (f c) } file) :=
  readScheduleFile_sameItems env base s (hfile.and hsafe)

/-- The first of four tests has a period that is not known. -/
def fourTests (a b c d : ℕ) : YamlNode :=
  fileOf [testWith [(.scalar 4, .scalar 5)] a, testWith [] b, testWith [] c, testWith [] d]

def sharesTwo (cell : ℕ) : ℕ := if cell = 7 then 6 else if cell = 9 then 8 else cell

theorem shared_targets_load : SameItems (readScheduleFile ScheduleLimits.fastpingEnvironment (fun _ => .oldestFirst ⟨1000, 0⟩)
        ⟨[], [], fileText (cstr "a!v4") (cstr "b")⟩ (fourTests 6 6 8 8))
      (readScheduleFile ScheduleLimits.fastpingEnvironment (fun _ => .oldestFirst ⟨1000, 0⟩)
        ⟨[], [], fun c => fileText (cstr "a!v4") (cstr "b") (sharesTwo c)⟩ (fourTests 6 7 8 9)) :=
  items_independent_of_sharing ScheduleLimits.fastpingEnvironment (fun _ => .oldestFirst ⟨1000, 0⟩) ⟨[], [], fun _ => []⟩
    (fourTests 6 7 8 9) sharesTwo (fileText (cstr "a!v4") (cstr "b")) (by decide +kernel) (by decide +kernel)

def namesToResolve : LoopResult → Option (List (List ResolveDest))
  | .returned s => some (s.items.map TestItem.resolve)
  | _ => none

theorem alias_loses_family : namesToResolve (readScheduleFile ScheduleLimits.fastpingEnvironment
      (fun _ => .oldestFirst ⟨1000, 0⟩) ⟨[], [], fileText (cstr "a!v4") (cstr "a!v4")⟩
      (fileOf [testWith [] 6, testWith [] 6])) = some [[⟨cstr "a", .inet, 0⟩], [⟨cstr "a", .unspec, 0⟩]] ∧
    namesToResolve (readScheduleFile ScheduleLimits.fastpingEnvironment
      (fun _ => .oldestFirst ⟨1000, 0⟩) ⟨[], [], fileText (cstr "a!v4") (cstr "a!v4")⟩
      (fileOf [testWith [] 6, testWith [] 7])) = some [[⟨cstr "a", .inet, 0⟩], [⟨cstr "a", .inet, 0⟩]] := by
  decide +kernel

end Amplet.ScheduleSharing
