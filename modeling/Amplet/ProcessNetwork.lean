import Mathlib.Logic.Function.Basic
import Mathlib.Tactic

/-!
# Networks of sequential processes

Processes that each do one action at a time and talk over unbounded queues with one
writer and one reader. Steps of different processes commute, so all complete runs end in
the same state after the same number of steps.
-/

namespace Amplet.ProcessNetwork
open Function

section Diamond

variable {σ : Type*} {r : σ → σ → Prop} {b : σ} {m : ℕ}

def Diamond (r : σ → σ → Prop) : Prop :=
  ∀ ⦃a b c : σ⦄, r a b → r a c → b = c ∨ ∃ d, r b d ∧ r c d

inductive Run (r : σ → σ → Prop) : ℕ → σ → σ → Prop
  | refl (a : σ) : Run r 0 a a
  | head {n : ℕ} {a b c : σ} : r a b → Run r n b c → Run r (n + 1) a c

theorem Run.single {a : σ} (h : r a b) : Run r 1 a b := .head h (.refl b)

theorem Run.trans {n : ℕ} {a c : σ} (h : Run r m a b) (h' : Run r n b c) : Run r (m + n) a c := by
  induction h with
  | refl => simpa using h'
  | head hstep _ ih =>
    rw [Nat.add_right_comm]
    exact .head hstep (ih h')

def Final (r : σ → σ → Prop) (a : σ) : Prop := ∀ b, ¬ r a b

section

variable {n : ℕ} {a t : σ} (hr : Diamond r) (ht : Final r t) (hrun : Run r n a t)
include hr ht hrun

theorem Diamond.after_step (hstep : r a b) : ∃ m, n = m + 1 ∧ Run r m b t := by
  induction n generalizing a b with
  | zero =>
    cases hrun
    exact absurd hstep (ht b)
  | succ n ih =>
    cases hrun with
    | head hfirst hrest =>
      rcases hr hfirst hstep with rfl | ⟨d, hcd, hbd⟩
      · exact ⟨n, rfl, hrest⟩
      · obtain ⟨m, rfl, hd⟩ := ih hrest hcd
        exact ⟨m + 1, rfl, .head hbd hd⟩

theorem Diamond.extends (h : Run r m a b) : ∃ k, n = m + k ∧ Run r k b t := by
  induction h generalizing n with
  | refl => exact ⟨n, by simp, hrun⟩
  | head hstep _ ih =>
    obtain ⟨n', rfl, hrest⟩ := hr.after_step ht hrun hstep
    obtain ⟨k, rfl, hk⟩ := ih hrest
    exact ⟨k, by omega, hk⟩

theorem Diamond.forall_reachable (h : Run r m a b) {P : σ → Prop} (hP : ∀ ⦃x y⦄, r x y → P y → P x) (hend : P t) : P b := by
  obtain ⟨k, -, hk⟩ := hr.extends ht hrun h
  clear h hrun
  induction hk with
  | refl => exact hend
  | head hstep _ ih => exact hP hstep (ih ht hend)

end

end Diamond

inductive Action (Chan Msg L : Type)
  | halt
  | work (next : L)
  | send (c : Chan) (m : Msg) (next : L)
  | receive (c : Chan) (next : Msg → L)

section Effect

variable {Chan Msg L L' : Type} [DecidableEq Chan] {queue : Chan → List Msg}

inductive Effect : Action Chan Msg L → (Chan → List Msg) → L → (Chan → List Msg) → Prop
  | work (l : L) (queue : Chan → List Msg) : Effect (.work l) queue l queue
  | send (c : Chan) (m : Msg) (l : L) (queue : Chan → List Msg) :
      Effect (.send c m l) queue l (update queue c (queue c ++ [m]))
  | receive (c : Chan) (f : Msg → L) {m : Msg} {q : List Msg} {queue : Chan → List Msg}
      (hq : queue c = m :: q) : Effect (.receive c f) queue (f m) (update queue c q)

theorem Effect.unique {a : Action Chan Msg L} {q₁ q₂ : Chan → List Msg} {l₁ l₂ : L}
    (h₁ : Effect a queue l₁ q₁) (h₂ : Effect a queue l₂ q₂) : l₁ = l₂ ∧ q₁ = q₂ := by
  cases h₁ with
  | work =>
    cases h₂
    exact ⟨rfl, rfl⟩
  | send =>
    cases h₂
    exact ⟨rfl, rfl⟩
  | receive c f hq =>
    cases h₂ with
    | receive _ _ hq' =>
      cases hq.symm.trans hq'
      exact ⟨rfl, rfl⟩

def Apart (a : Action Chan Msg L) (b : Action Chan Msg L') : Prop :=
  (∀ c m l m' l', a = .send c m l → b ≠ .send c m' l') ∧ ∀ c f f', a = .receive c f → b ≠ .receive c f'

theorem Effect.receive_update {c c' : Chan} (hne : c ≠ c') {m : Msg} {q q' : List Msg} (f : Msg → L)
    (hq : queue c = m :: q) : Effect (.receive c f) (update queue c' q') (f m) (update (update queue c' q') c q) :=
  .receive c f (by rw [update_of_ne hne]; exact hq)

theorem Effect.send_receive {c c' : Chan} {m m' : Msg} {q : List Msg} (l : L) (f : Msg → L') (hq : queue c' = m' :: q) :
    ∃ both, Effect (.receive c' f) (update queue c (queue c ++ [m])) (f m') both ∧
      Effect (.send c m l) (update queue c' q) l both := by
  by_cases hc : c = c'
  · subst hc
    refine ⟨_, .receive c f (m := m') (q := q ++ [m]) (by simp [hq]), ?_⟩
    have h := Effect.send c m l (update queue c q)
    simpa using h
  · refine ⟨_, Effect.receive_update (Ne.symm hc) f hq, ?_⟩
    have h := Effect.send c m l (update queue c' q)
    rw [update_of_ne hc, update_comm (Ne.symm hc)] at h
    exact h

theorem Effect.commute {a : Action Chan Msg L} {b : Action Chan Msg L'} {q₁ q₂ : Chan → List Msg}
    {l : L} {l' : L'} (hab : Apart a b) (h₁ : Effect a queue l q₁) (h₂ : Effect b queue l' q₂) :
    ∃ both, Effect b q₁ l' both ∧ Effect a q₂ l both := by
  cases h₁ with
  | work => exact ⟨q₂, h₂, .work l q₂⟩
  | send c m =>
    cases h₂ with
    | work => exact ⟨_, .work l' _, .send c m l queue⟩
    | send c' m' =>
      have hne : c ≠ c' := by
        rintro rfl
        exact hab.1 c m l m' l' rfl rfl
      have h := Effect.send c m l (update queue c' (queue c' ++ [m']))
      have h' := Effect.send c' m' l' (update queue c (queue c ++ [m]))
      rw [update_of_ne hne, update_comm (Ne.symm hne)] at h
      rw [update_of_ne (Ne.symm hne)] at h'
      exact ⟨_, h', h⟩
    | receive c' f' hq' => exact Effect.send_receive l f' hq'
  | receive c f hq =>
    cases h₂ with
    | work => exact ⟨_, .work l' _, .receive c f hq⟩
    | send c' m' =>
      obtain ⟨both, h, h'⟩ := Effect.send_receive l' f hq
      exact ⟨both, h', h⟩
    | receive c' f' hq' =>
      have hne : c ≠ c' := by
        rintro rfl
        exact hab.2 c f f' rfl rfl
      refine ⟨_, Effect.receive_update (Ne.symm hne) f' hq', ?_⟩
      rw [update_comm hne]
      exact Effect.receive_update hne f hq

end Effect

/-- Each process with its next action; the queues have one writer and one reader. -/
structure Network (ι Chan Msg : Type) (L : ι → Type) where
  act : ∀ i, L i → Action Chan Msg (L i)
  writer : Chan → ι
  reader : Chan → ι
  writes : ∀ {i l c m l'}, act i l = .send c m l' → writer c = i
  reads : ∀ {i l c f}, act i l = .receive c f → reader c = i

structure State (ι Chan Msg : Type) (L : ι → Type) where
  proc : ∀ i, L i
  queue : Chan → List Msg

variable {ι Chan Msg : Type} {L : ι → Type}

theorem Network.apart (N : Network ι Chan Msg L) {i j : ι} (hij : i ≠ j) (l : L i) (l' : L j) :
    Apart (N.act i l) (N.act j l') := by
  constructor
  · intro c m k m' k' h h'
    exact hij ((N.writes h).symm.trans (N.writes h'))
  · intro c f f' h h'
    exact hij ((N.reads h).symm.trans (N.reads h'))

variable [DecidableEq ι] [DecidableEq Chan]

inductive Step (N : Network ι Chan Msg L) (s : State ι Chan Msg L) : State ι Chan Msg L → Prop
  | of {i : ι} {l : L i} {queue : Chan → List Msg}
      (h : Effect (N.act i (s.proc i)) s.queue l queue) :
      Step N s ⟨update s.proc i l, queue⟩

theorem step_diamond (N : Network ι Chan Msg L) : Diamond (Step N) := by
  rintro a b c ⟨h⟩ ⟨h'⟩
  rename_i i l queue j l' queue'
  by_cases hij : i = j
  · subst hij
    obtain ⟨rfl, rfl⟩ := h.unique h'
    exact Or.inl rfl
  · obtain ⟨both, hj, hi⟩ := h.commute (N.apart hij _ _) h'
    refine Or.inr ⟨⟨update (update a.proc i l) j l', both⟩, .of ?_, ?_⟩
    · dsimp only
      rw [update_of_ne (Ne.symm hij)]
      exact hj
    · rw [update_comm hij]
      refine .of ?_
      dsimp only
      rw [update_of_ne hij]
      exact hi

end Amplet.ProcessNetwork
