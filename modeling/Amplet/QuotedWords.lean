import Mathlib.Data.List.Basic
import Mathlib.Tactic

/-!
# Words with quotes and escapes

A text is read in two steps. The first says what each symbol stands for: a separator, a
quote that is removed, or a literal symbol. The second cuts the items at the separators.
-/

namespace Amplet.QuotedWords
open List

structure Marks (α : Type*) where
  escape : α
  isQuote : α → Bool
  isBlank : α → Bool

inductive Item (α : Type*)
  | separator
  | mark
  | literal (c : α)
deriving DecidableEq

def Item.symbol {α : Type*} : Item α → Option α
  | literal c => some c
  | _ => none

inductive Ending (α : Type*)
  | closed
  | inQuote (q : α)
  | loneEscape
deriving DecidableEq

def Ending.openQuote {α : Type*} : Ending α → Option (Option α)
  | closed => some none
  | inQuote q => some (some q)
  | loneEscape => none

variable {α : Type*}

section Reading

variable [DecidableEq α]

def Marks.role (marks : Marks α) : Option α → α → Item α × Option α
  | some q, c => if c = q then (.mark, none) else (.literal c, some q)
  | none, c =>
    if marks.isQuote c then (.mark, some c)
    else if marks.isBlank c then (.separator, none)
    else (.literal c, none)

def Marks.read (marks : Marks α) : Option α → List α → List (Item α) × Ending α
  | none, [] => ([], .closed)
  | some q, [] => ([], .inQuote q)
  | q, c :: rest =>
    if c = marks.escape then
      match rest with
      | [] => ([], .loneEscape)
      | c' :: rest => (.literal c' :: (marks.read q rest).1, (marks.read q rest).2)
    else
      ((marks.role q c).1 :: (marks.read (marks.role q c).2 rest).1, (marks.read (marks.role q c).2 rest).2)

def Marks.items (marks : Marks α) (text : List α) : List (Item α) := (marks.read none text).1

def Marks.ending (marks : Marks α) (text : List α) : Ending α := (marks.read none text).2

theorem Marks.read_cons (marks : Marks α) (q : Option α) {c : α} (hc : c ≠ marks.escape) (rest : List α) :
    marks.read q (c :: rest) = ((marks.role q c).1 :: (marks.read (marks.role q c).2 rest).1,
        (marks.read (marks.role q c).2 rest).2) := by
  cases q <;> cases rest <;> simp [Marks.read, hc]

theorem Marks.read_escape (marks : Marks α) (q : Option α) (c : α) (rest : List α) : marks.read q (marks.escape :: c :: rest) =
      (.literal c :: (marks.read q rest).1, (marks.read q rest).2) := by
  cases q <;> rw [Marks.read, if_pos rfl]

end Reading

def literals (run : List (Item α)) : List α := run.filterMap Item.symbol

@[simp] theorem literals_concat (run : List (Item α)) (i : Item α) : literals (run ++ [i]) = literals run ++ i.symbol.toList := by
  rw [literals, filterMap_append, literals]
  cases hi : i.symbol <;> simp [hi]

def wordsOf (runs : List (List (Item α))) : List (List α) := (runs.filter (· ≠ [])).map literals

theorem wordsOf_cons (run : List (Item α)) (runs : List (List (Item α))) :
    wordsOf (run :: runs) = wordsOf [run] ++ wordsOf runs := by
  rw [wordsOf, ← singleton_append, filter_append, map_append]
  rfl

theorem wordsOf_singleton {run : List (Item α)} (hrun : run ≠ []) : wordsOf [run] = [literals run] := by
  simp [wordsOf, hrun]

def runOf (w : List α) : List (Item α) := if w = [] then [.mark, .mark] else w.map .literal

theorem runOf_ne_nil (w : List α) : runOf w ≠ [] := by
  cases w <;> simp [runOf]

theorem separator_notMem_runOf (w : List α) : .separator ∉ runOf w := by
  cases w <;> simp [runOf]

theorem literals_runOf (w : List α) : literals (runOf w) = w := by
  rw [runOf]
  split_ifs with hw
  · rw [hw]
    rfl
  · rw [literals, filterMap_map]
    exact filterMap_some

section Groups

variable [DecidableEq α] {run items : List (Item α)}

def groups (items : List (Item α)) : List (List (Item α)) := items.splitOn .separator

def words (items : List (Item α)) : List (List α) := wordsOf (groups items)

def Marks.split (marks : Marks α) (text : List α) : Option (List (List α)) :=
  if marks.ending text = .closed then some (words (marks.items text)) else none

def completed (items : List (Item α)) : List (List α) := wordsOf (groups items).dropLast

def lastRun (items : List (Item α)) : List (Item α) := (groups items).getLastD []

theorem groups_of_notMem (hrun : .separator ∉ run) : groups run = [run] :=
  splitOn_eq_singleton hrun

theorem groups_append (hrun : .separator ∉ run) (items : List (Item α)) :
    groups (run ++ .separator :: items) = run :: groups items :=
  splitOn_append_cons_self_of_not_mem hrun items

theorem groups_ne_nil (items : List (Item α)) : groups items ≠ [] := splitOn_ne_nil _ _

section

variable (hrun : .separator ∉ run)
include hrun

theorem completed_of_notMem : completed run = [] := by
  rw [completed, groups_of_notMem hrun]
  rfl

theorem lastRun_of_notMem : lastRun run = run := by
  rw [lastRun, groups_of_notMem hrun]
  rfl

theorem completed_append (items : List (Item α)) : completed (run ++ .separator :: items) = wordsOf [run] ++ completed items := by
  rw [completed, groups_append hrun, dropLast_cons_of_ne_nil (groups_ne_nil items), wordsOf_cons, completed]

theorem lastRun_append (items : List (Item α)) : lastRun (run ++ .separator :: items) = lastRun items := by
  rw [lastRun, groups_append hrun, lastRun]
  cases hgroups : groups items with
  | nil => exact absurd hgroups (groups_ne_nil items)
  | cons g gs => rfl

end

theorem words_eq (items : List (Item α)) : words items = completed items ++ wordsOf [lastRun items] := by
  have hlast : (groups items).dropLast ++ [lastRun items] = groups items := by
    rw [lastRun, getLastD_eq_getLast?, getLast?_eq_getLast_of_ne_nil (groups_ne_nil items), Option.getD_some]
    exact dropLast_append_getLast (groups_ne_nil items)
  rw [words, ← hlast, completed, wordsOf, filter_append, map_append]
  simp [wordsOf]

theorem mem_words {g : List (Item α)} (hg : g ∈ groups items) (hne : g ≠ []) : literals g ∈ words items :=
  mem_map_of_mem (mem_filter.mpr ⟨hg, by simpa using hne⟩)

theorem exists_run (items : List (Item α)) :
    .separator ∉ items ∨ ∃ run rest, items = run ++ .separator :: rest ∧ .separator ∉ run := by
  by_cases h : Item.separator ∈ items
  · exact Or.inr (eq_append_cons_of_mem h)
  · exact Or.inl h

theorem lastRun_concat (items : List (Item α)) (i : Item α) :
    lastRun (items ++ [i]) = if i = .separator then [] else lastRun items ++ [i] := by
  induction hn : items.length using Nat.strong_induction_on generalizing items with
  | _ n ih =>
    rcases exists_run items with hrun | ⟨run, rest, rfl, hrun⟩
    · split_ifs with hi
      · rw [hi, lastRun_append hrun]
        rfl
      · rw [lastRun_of_notMem hrun]
        refine lastRun_of_notMem fun hmem => ?_
        rcases mem_append.mp hmem with hmem | hmem
        · exact hrun hmem
        · exact hi (mem_singleton.mp hmem).symm
    · rw [append_assoc, cons_append, lastRun_append hrun, lastRun_append hrun]
      refine ih rest.length ?_ rest rfl
      rw [← hn, length_append, length_cons]
      omega

theorem lastRun_eq_nil_iff (items : List (Item α)) :
    lastRun items = [] ↔ items = [] ∨ ∃ front, items = front ++ [.separator] := by
  rcases items.eq_nil_or_concat with rfl | ⟨front, i, rfl⟩
  · exact iff_of_true rfl (Or.inl rfl)
  · rw [concat_eq_append, lastRun_concat]
    by_cases hi : i = .separator
    · rw [if_pos hi]
      exact iff_of_true rfl (Or.inr ⟨front, by rw [hi]⟩)
    · rw [if_neg hi]
      refine iff_of_false (by simp) ?_
      rintro (hnil | ⟨front', heq⟩)
      · simp at hnil
      · exact hi (singleton_inj.mp (append_inj' heq rfl).2)

end Groups

section Rendering

variable [DecidableEq α] (marks : Marks α) (quote blank : α)

def Marks.quoteWord (w : List α) : List α :=
  if w = [] then [quote, quote] else w.flatMap fun c => [marks.escape, c]

def Marks.render (ws : List (List α)) : List α :=
  [blank].intercalate (ws.map (marks.quoteWord quote))

structure Marks.Renders : Prop where
  quote_plain : quote ≠ marks.escape
  quote_isQuote : marks.isQuote quote = true
  blank_plain : blank ≠ marks.escape
  blank_isBlank : marks.isBlank blank = true
  blank_isQuote : marks.isQuote blank = false

theorem Marks.read_escaped (q : Option α) (w rest : List α) : marks.read q (w.flatMap (fun c => [marks.escape, c]) ++ rest) =
      (w.map .literal ++ (marks.read q rest).1, (marks.read q rest).2) := by
  induction w with
  | nil => rfl
  | cons c w ih =>
    rw [flatMap_cons, append_assoc, cons_append, singleton_append, marks.read_escape, ih]
    rfl

variable {marks quote blank}

theorem Marks.Renders.read_quoteWord (h : marks.Renders quote blank) (w rest : List α) :
    marks.read none (marks.quoteWord quote w ++ rest) = (runOf w ++ (marks.read none rest).1, (marks.read none rest).2) := by
  rw [Marks.quoteWord, runOf]
  split_ifs
  · have hopen : marks.role none quote = (.mark, some quote) := if_pos h.quote_isQuote
    have hclose : marks.role (some quote) quote = (.mark, none) := if_pos rfl
    rw [cons_append, singleton_append, marks.read_cons none h.quote_plain, hopen,
      marks.read_cons (some quote) h.quote_plain, hclose]
    rfl
  · exact marks.read_escaped none w rest

theorem Marks.Renders.read_render (h : marks.Renders quote blank) {ws : List (List α)} (hws : ws ≠ []) :
    marks.ending (marks.render quote blank ws) = .closed ∧ words (marks.items (marks.render quote blank ws)) = ws ∧
      lastRun (marks.items (marks.render quote blank ws)) ≠ [] := by
  rw [Marks.ending, Marks.items]
  induction ws with
  | nil => exact absurd rfl hws
  | cons w ws ih =>
    have hrun := separator_notMem_runOf w
    cases ws with
    | nil =>
      have hread := h.read_quoteWord w []
      rw [append_nil, Marks.read, append_nil] at hread
      rw [Marks.render, map_singleton, intercalate_singleton, hread, words,
        groups_of_notMem hrun, wordsOf_singleton (runOf_ne_nil w), literals_runOf,
        lastRun_of_notMem hrun]
      exact ⟨rfl, rfl, runOf_ne_nil w⟩
    | cons v ws =>
      obtain ⟨hclosed, hwords, hlast⟩ := ih (cons_ne_nil v ws)
      have hblank : marks.role none blank = (.separator, none) := by
        rw [Marks.role, if_neg (by simp [h.blank_isQuote]), if_pos h.blank_isBlank]
      have hrender : marks.render quote blank (w :: v :: ws) =
          marks.quoteWord quote w ++ blank :: marks.render quote blank (v :: ws) := by
        simp [Marks.render]
      rw [hrender, h.read_quoteWord, marks.read_cons none h.blank_plain, hblank, words,
        groups_append hrun, wordsOf_cons, wordsOf_singleton (runOf_ne_nil w), literals_runOf,
        lastRun_append hrun]
      exact ⟨hclosed, congrArg (w :: ·) hwords, hlast⟩

end Rendering

end Amplet.QuotedWords
