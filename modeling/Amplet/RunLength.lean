import Mathlib.Data.List.Basic
import Mathlib.Tactic

/-!
# Run-length encoding

A sequence as runs of equal elements, built one element at a time at the end.
-/

namespace Amplet.RunLength
open List Option

structure Run (α : Type*) where
  value : α
  length : ℕ
deriving DecidableEq, Repr

section

variable {α : Type*}

def expand (runs : List (Run α)) : List α := runs.flatMap fun run => replicate run.length run.value

structure Proper (runs : List (Run α)) : Prop where
  alternating : runs.IsChain fun run next => run.value ≠ next.value
  nonempty : ∀ run ∈ runs, 1 ≤ run.length

theorem proper_nil : Proper ([] : List (Run α)) := ⟨.nil, by simp⟩

theorem expand_append (runs next : List (Run α)) : expand (runs ++ next) = expand runs ++ expand next :=
  flatMap_append ..

theorem sum_length (runs : List (Run α)) : (runs.map Run.length).sum = (expand runs).length := by
  simp [expand, length_flatMap]

variable [DecidableEq α] {runs : List (Run α)} {a : α}

def push (runs : List (Run α)) (a : α) : List (Run α) :=
  match runs.getLast? with
  | some run => if run.value = a then runs.dropLast ++ [⟨a, run.length + 1⟩] else runs ++ [⟨a, 1⟩]
  | none => runs ++ [⟨a, 1⟩]

def total (a : α) (runs : List (Run α)) : ℕ := ((runs.filter (·.value = a)).map Run.length).sum

theorem push_same {run : Run α} (h : run.value = a) :
    push (runs ++ [run]) a = runs ++ [⟨a, run.length + 1⟩] := by
  rw [push, getLast?_concat]
  dsimp only
  rw [if_pos h, dropLast_concat]

theorem push_other {run : Run α} (h : run.value ≠ a) :
    push (runs ++ [run]) a = runs ++ [run] ++ [⟨a, 1⟩] := by
  rw [push, getLast?_concat]
  dsimp only
  rw [if_neg h]

theorem expand_push (runs : List (Run α)) (a : α) : expand (push runs a) = expand runs ++ [a] := by
  rcases eq_nil_or_concat' runs with rfl | ⟨before, run, rfl⟩
  · rfl
  · by_cases h : run.value = a
    · rw [push_same h, expand_append, expand_append, append_assoc]
      simp [expand, h, replicate_succ']
    · rw [push_other h, expand_append]
      simp [expand]

theorem Proper.push (h : Proper runs) (a : α) : Proper (push runs a) := by
  rcases eq_nil_or_concat' runs with rfl | ⟨before, run, rfl⟩
  · exact ⟨.singleton _, by simp [RunLength.push]⟩
  obtain ⟨hbefore, -, hlast⟩ := isChain_append.mp h.alternating
  by_cases hrun : run.value = a
  · rw [push_same hrun]
    constructor
    · refine isChain_append.mpr ⟨hbefore, .singleton _, fun x hx y hy => ?_⟩
      rw [head?_singleton, mem_def, some.injEq] at hy
      rw [← hy, ← hrun]
      exact hlast x hx run rfl
    · intro x hx
      rcases mem_append.mp hx with hx | hx
      · exact h.nonempty x (mem_append_left _ hx)
      · rw [mem_singleton.mp hx]
        exact Nat.le_add_left ..
  · rw [push_other hrun]
    constructor
    · refine isChain_append.mpr ⟨h.alternating, .singleton _, fun x hx y hy => ?_⟩
      rw [getLast?_concat, mem_def, some.injEq] at hx
      rw [head?_singleton, mem_def, some.injEq] at hy
      rwa [← hx, ← hy]
    · intro x hx
      rcases mem_append.mp hx with hx | hx
      · exact h.nonempty x hx
      · rw [mem_singleton.mp hx]

theorem total_eq_count (a : α) (runs : List (Run α)) : total a runs = (expand runs).count a := by
  induction runs with
  | nil => rfl
  | cons run runs ih =>
    have hexpand : expand (run :: runs) = replicate run.length run.value ++ expand runs :=
      flatMap_cons
    rw [hexpand, count_append, ← ih, count_replicate, total, total]
    by_cases h : run.value = a
    · simp [h]
    · simp [h]

end

end Amplet.RunLength
