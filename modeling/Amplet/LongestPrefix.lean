import Mathlib.Data.List.Infix

/-!
# Longest-prefix lookup

A table assigns values to some paths. `lookup` descends along a path and keeps
the value met last, which is the value of the longest prefix the table
defines. The two characterisations below say so without mentioning the
descent.
-/

namespace Amplet.LongestPrefix
open List Function

variable {κ ν : Type*}

def below (table : List κ → Option ν) (k : κ) : List κ → Option ν := fun p => table (k :: p)

def lookup (table : List κ → Option ν) (fallback : ν) : List κ → ν
  | [] => (table []).getD fallback
  | k :: path => lookup (below table k) ((table []).getD fallback) path

theorem lookup_eq_fallback {table : List κ → Option ν} {path : List κ} (h : ∀ p, p <+: path → table p = none) (fallback : ν) :
    lookup table fallback path = fallback := by
  induction path generalizing table with
  | nil => simp [lookup, h [] prefix_rfl]
  | cons k path ih =>
    have hroot : table [] = none := h [] nil_prefix
    rw [lookup, hroot, Option.getD_none]
    exact ih fun p hp => h (k :: p) (prefix_cons_inj k |>.mpr hp)

theorem lookup_eq_of_longest {table : List κ → Option ν} {path p : List κ} {v : ν} (hp : p <+: path) (hv : table p = some v)
    (hmax : ∀ p', p' <+: path → table p' ≠ none → p'.length ≤ p.length) (fallback : ν) :
    lookup table fallback path = v := by
  induction path generalizing table p fallback with
  | nil =>
    obtain rfl := prefix_nil.mp hp
    simp [lookup, hv]
  | cons k path ih =>
    cases p with
    | nil =>
      rw [lookup, hv, Option.getD_some]
      apply lookup_eq_fallback
      intro p' hp'
      by_contra hne
      have := hmax (k :: p') ((prefix_cons_inj k).mpr hp') hne
      simp at this
    | cons k' p =>
      obtain ⟨rfl, htail⟩ := cons_prefix_cons.mp hp
      rw [lookup]
      refine ih htail hv (fun p' hp' hne => ?_) _
      simpa using hmax (k' :: p') ((prefix_cons_inj k').mpr hp') hne

def graft [DecidableEq κ] (table : List κ → Option ν) (k : κ) (sub : List κ → Option ν) : List κ → Option ν
  | [] => table []
  | k' :: p => if k' = k then sub p else table (k' :: p)

theorem update_cons_eq_graft [DecidableEq κ] (table : List κ → Option ν) (k : κ) (p : List κ) (v : Option ν) :
    update table (k :: p) v = graft table k (update (below table k) p v) := by
  funext q
  cases q with
  | nil => simp [graft, update]
  | cons k' q =>
    by_cases hk : k' = k
    · subst hk
      by_cases hq : q = p
      · simp [graft, hq]
      · simp [graft, hq, below]
    · simp [graft, hk]

end Amplet.LongestPrefix
