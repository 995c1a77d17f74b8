import Mathlib.Logic.Function.Basic
import Mathlib.Tactic

/-!
# Prepending to a shared list

Without the lock, reading the head and writing it are separate actions, and what another
thread prepended in between is lost. The list holds everything that was written exactly
when every write found the head that its thread had read.
-/

namespace Amplet.SharedList
open List

variable {ι α : Type*}

structure Shared (ι α : Type*) where
  head : List α
  seen : ι → List α

def Shared.empty : Shared ι α := ⟨[], fun _ => []⟩

inductive Access (ι α : Type*)
  | push (items : List α)
  | read (thread : ι)
  | write (thread : ι) (item : α)

def Access.items : Access ι α → List α
  | .push items => items
  | .read _ => []
  | .write _ item => [item]

def Access.Current (s : Shared ι α) : Access ι α → Prop
  | .write thread _ => s.seen thread = s.head
  | _ => True

def written : List (Access ι α) → List α
  | [] => []
  | access :: accesses => written accesses ++ access.items

theorem written_append (first second : List (Access ι α)) : written (first ++ second) = written second ++ written first := by
  induction first with
  | nil => simp [written]
  | cons access first ih => simp [written, ih]

/-- What is not complete is shorter than the log. -/
structure Logged (s : Shared ι α) (log : List α) : Prop where
  head : s.head = log ∨ s.head.length < log.length
  seen : ∀ thread, s.seen thread = s.head ∨ (s.seen thread).length < log.length

theorem Logged.empty : Logged (Shared.empty : Shared ι α) [] := ⟨.inl rfl, fun _ => .inl rfl⟩

variable {s : Shared ι α} {log : List α}

theorem Logged.head_length_le (h : Logged s log) : s.head.length ≤ log.length := by
  rcases h.head with heq | hlt
  · rw [heq]
  · exact hlt.le

theorem Logged.seen_length_le (h : Logged s log) (thread : ι) : (s.seen thread).length ≤ log.length := by
  rcases h.seen thread with heq | hlt
  · rw [heq]
    exact h.head_length_le
  · exact hlt.le

variable [DecidableEq ι]

def Access.apply (s : Shared ι α) : Access ι α → Shared ι α
  | .push items => { s with head := items ++ s.head }
  | .read thread => { s with seen := Function.update s.seen thread s.head }
  | .write thread item => { s with head := item :: s.seen thread }

def run (s : Shared ι α) (accesses : List (Access ι α)) : Shared ι α :=
  accesses.foldl Access.apply s

def Serial (s : Shared ι α) : List (Access ι α) → Prop
  | [] => True
  | access :: accesses => access.Current s ∧ Serial (access.apply s) accesses

theorem run_append (s : Shared ι α) (first second : List (Access ι α)) : run s (first ++ second) = run (run s first) second :=
  foldl_append

theorem serial_append (s : Shared ι α) (first second : List (Access ι α)) :
    Serial s (first ++ second) ↔ Serial s first ∧ Serial (run s first) second := by
  induction first generalizing s with
  | nil => simp [Serial, run]
  | cons access first ih => simp [Serial, run, ih, and_assoc]

theorem Logged.apply (h : Logged s log) (access : Access ι α) : Logged (access.apply s) (access.items ++ log) := by
  cases access with
  | push items =>
    constructor
    · rcases h.head with heq | hlt
      · left
        simp [Access.apply, Access.items, heq]
      · right
        simpa [Access.apply, Access.items] using hlt
    · intro thread
      cases items with
      | nil => simpa [Access.apply, Access.items] using h.seen thread
      | cons item items =>
        right
        have := h.seen_length_le thread
        simp only [Access.apply, Access.items, length_append, length_cons]
        omega
  | read thread =>
    refine ⟨h.head, fun other => ?_⟩
    by_cases hother : other = thread
    · left
      simp [Access.apply, hother]
    · simpa [Access.apply, Access.items, hother] using h.seen other
  | write thread item =>
    constructor
    · rcases h.seen thread with hseen | hlt
      · rcases h.head with heq | hlt
        · left
          simp [Access.apply, Access.items, hseen, heq]
        · right
          simpa [Access.apply, Access.items, hseen] using hlt
      · right
        simpa [Access.apply, Access.items] using hlt
    · -- the log has grown past what any thread has read
      intro other
      right
      have := h.seen_length_le other
      simp only [Access.apply, Access.items, length_append, length_singleton]
      omega

theorem Logged.apply_head_iff (h : Logged s log) (access : Access ι α) :
    (access.apply s).head = access.items ++ log ↔ s.head = log ∧ access.Current s := by
  cases access with
  | push items => simp [Access.apply, Access.items, Access.Current]
  | read thread => simp [Access.apply, Access.items, Access.Current]
  | write thread item =>
    simp only [Access.apply, Access.items, Access.Current, singleton_append, cons.injEq, true_and]
    constructor
    · intro hlog
      have hseen : s.seen thread = s.head := by
        rcases h.seen thread with hseen | hlt
        · exact hseen
        · rw [hlog] at hlt
          exact absurd hlt (lt_irrefl _)
      exact ⟨hseen.symm.trans hlog, hseen⟩
    · rintro ⟨hhead, hseen⟩
      exact hseen.trans hhead

theorem Logged.run (h : Logged s log) (accesses : List (Access ι α)) : Logged (run s accesses) (written accesses ++ log) := by
  induction accesses generalizing s log with
  | nil => exact h
  | cons access accesses ih =>
    rw [written, append_assoc]
    exact ih (h.apply access)

theorem Logged.run_head_iff (h : Logged s log) (accesses : List (Access ι α)) :
    (SharedList.run s accesses).head = written accesses ++ log ↔ s.head = log ∧ Serial s accesses := by
  induction accesses generalizing s log with
  | nil => simp [SharedList.run, written, Serial]
  | cons access accesses ih =>
    rw [written, append_assoc, Serial, ← and_assoc, ← h.apply_head_iff]
    exact ih (h.apply access)

end Amplet.SharedList
