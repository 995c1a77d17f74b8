import Mathlib.Data.Finset.Card
import Mathlib.Tactic

/-!
# Requests in flight

A counter is kept of the requests that wait for an answer. It is accurate as long
as every answer that is counted is the first one to a request that was sent, and
as long as no request stops waiting without being counted.
-/

namespace Amplet.InFlight

variable {ι : Type*} [DecidableEq ι]

structure Requests (ι : Type*) where
  waiting : Finset ι
  outstanding : ℤ

def Requests.Accurate (r : Requests ι) : Prop := r.outstanding = r.waiting.card

/-- A request that is released stops waiting, but the counter stays as it is. A stray answer is to no
request and is counted. -/
inductive Change (ι : Type*)
  | idle
  | sent (i : ι)
  | answered (i : ι)
  | released (i : ι)
  | stray

namespace Change

def apply (r : Requests ι) : Change ι → Requests ι
  | .idle => r
  | .sent i => ⟨insert i r.waiting, r.outstanding + 1⟩
  | .answered i => ⟨r.waiting.erase i, r.outstanding - 1⟩
  | .released i => ⟨r.waiting.erase i, r.outstanding⟩
  | .stray => ⟨r.waiting, r.outstanding - 1⟩

def Fits (r : Requests ι) : Change ι → Prop
  | .idle => True
  | .sent i => i ∉ r.waiting
  | .answered i => i ∈ r.waiting
  | .released i => i ∉ r.waiting
  | .stray => False

theorem accurate_apply_iff {r : Requests ι} (h : r.Accurate) (c : Change ι) : (c.apply r).Accurate ↔ c.Fits r := by
  rw [Requests.Accurate] at h
  cases c with
  | idle => exact iff_of_true h trivial
  | sent i =>
    simp only [apply, Requests.Accurate, Fits]
    by_cases hi : i ∈ r.waiting
    · rw [Finset.insert_eq_of_mem hi]
      exact iff_of_false (by omega) (not_not_intro hi)
    · rw [Finset.card_insert_of_notMem hi]
      exact iff_of_true (by push_cast; omega) hi
  | answered i =>
    simp only [apply, Requests.Accurate, Fits]
    by_cases hi : i ∈ r.waiting
    · have hcard := Finset.card_erase_add_one hi
      exact iff_of_true (by omega) hi
    · rw [Finset.erase_eq_of_notMem hi]
      exact iff_of_false (by omega) hi
  | released i =>
    simp only [apply, Requests.Accurate, Fits]
    by_cases hi : i ∈ r.waiting
    · have hcard := Finset.card_erase_add_one hi
      exact iff_of_false (by omega) (not_not_intro hi)
    · rw [Finset.erase_eq_of_notMem hi]
      exact iff_of_true h hi
  | stray =>
    simp only [apply, Requests.Accurate, Fits, iff_false]
    omega

end Change

section Runs

variable {σ ε : Type*} (Step : σ → ε → σ → Prop)

def Always (P : σ → Prop) : σ → List ε → Prop
  | s, [] => P s
  | s, e :: events => P s ∧ ∀ s', Step s e s' → Always P s' events

def Each (Q : σ → ε → Prop) : σ → List ε → Prop
  | _, [] => True
  | s, e :: events => ∀ s', Step s e s' → Q s e ∧ Each Q s' events

variable {Step} {P : σ → Prop} {Q : σ → ε → Prop}

theorem Always.head {s : σ} {events : List ε} (h : Always Step P s events) : P s := by
  cases events with
  | nil => exact h
  | cons e events => exact h.1

theorem always_iff_each (Inv : σ → Prop) (hkept : ∀ s e s', Inv s → Step s e s' → P s → (P s' ↔ Q s e))
    (hinv : ∀ s e s', Inv s → Step s e s' → P s → Q s e → Inv s')
    {s : σ} (hs : Inv s) (hP : P s) (events : List ε) :
    Always Step P s events ↔ Each Step Q s events := by
  induction events generalizing s with
  | nil => exact iff_of_true hP trivial
  | cons e events ih =>
    constructor
    · rintro ⟨-, hrest⟩ s' hstep
      have hQ : Q s e := (hkept s e s' hs hstep hP).mp (hrest s' hstep).head
      have hinv' := hinv s e s' hs hstep hP hQ
      exact ⟨hQ, (ih hinv' (hrest s' hstep).head).mp (hrest s' hstep)⟩
    · intro heach
      refine ⟨hP, fun s' hstep => ?_⟩
      obtain ⟨hQ, hrest⟩ := heach s' hstep
      have hinv' := hinv s e s' hs hstep hP hQ
      exact (ih hinv' ((hkept s e s' hs hstep hP).mpr hQ)).mpr hrest

end Runs

end Amplet.InFlight
