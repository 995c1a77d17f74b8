import Mathlib.Data.List.Basic
import Mathlib.Tactic

/-!
# Buffers of a fixed size

A block of memory keeps its size. A write that does not fit has no result. The
values a write leaves are read off a split of the buffer around it.
-/

namespace Amplet.FixedBuffer
open List

variable {α : Type*} {n : ℕ} {pos : ℕ}

@[ext]
structure Buffer (α : Type*) (n : ℕ) where
  cells : List α
  length_eq : cells.length = n

variable {src : List α} {b : Buffer α n}

namespace Buffer
open List

def fill (n : ℕ) (x : α) : Buffer α n := ⟨replicate n x, length_replicate⟩

theorem splice_length (b : Buffer α n) (h : pos + src.length ≤ n) :
    (b.cells.take pos ++ src ++ b.cells.drop (pos + src.length)).length = n := by
  have hlength := b.length_eq
  simp only [length_append, length_take, length_drop]
  omega

def write (b : Buffer α n) (pos : ℕ) (src : List α) : Option (Buffer α n) :=
  if h : pos + src.length ≤ n then some ⟨_, b.splice_length h⟩ else none

theorem write_split {before old after : List α} (src : List α)
    (hcells : b.cells = before ++ (old ++ after)) (hold : old.length = src.length) :
    ∃ b', b.write before.length src = some b' ∧ b'.cells = before ++ (src ++ after) := by
  have hlength := b.length_eq
  rw [hcells, length_append, length_append] at hlength
  refine ⟨_, dif_pos (by omega), ?_⟩
  have hdrop : b.cells.drop (before.length + src.length) = after := by
    rw [hcells, ← append_assoc, ← hold, ← length_append, drop_left]
  simp only [hdrop]
  rw [hcells, take_left, append_assoc]

theorem write_at {before behind : List α} (src : List α) (hcells : b.cells = before ++ behind)
    (hfit : before.length + src.length ≤ n) :
    ∃ b', b.write before.length src = some b' ∧ b'.cells = before ++ (src ++ behind.drop src.length) := by
  have hlength := b.length_eq
  rw [hcells, length_append] at hlength
  have hsplit : b.cells = before ++ (behind.take src.length ++ behind.drop src.length) := by
    rw [hcells, take_append_drop]
  exact write_split src hsplit (length_take_of_le (by omega))

theorem write_all (b : Buffer α n) (h : src.length = n) : ∃ b', b.write 0 src = some b' ∧ b'.cells = src := by
  have hcells : b.cells = [] ++ (b.cells ++ []) := by simp
  obtain ⟨b', hwrite, hcells'⟩ := write_split src hcells (b.length_eq.trans h.symm)
  exact ⟨b', hwrite, by simpa using hcells'⟩

theorem write_drop (b : Buffer α n) (k : ℕ) : ∃ b', b.write 0 (b.cells.drop k) = some b' ∧
    b'.cells = b.cells.drop k ++ b.cells.drop (n - k) := by
  have hcells : b.cells = [] ++ (b.cells.take (n - k) ++ b.cells.drop (n - k)) := by simp
  have hlength : (b.cells.take (n - k)).length = (b.cells.drop k).length := by
    rw [length_take, length_drop, b.length_eq]
    omega
  exact write_split (b.cells.drop k) hcells hlength

theorem write_eq_none (h : n < pos + src.length) : b.write pos src = none := dif_neg (Nat.not_le.mpr h)

end Buffer

def splice (cells : List α) (pos : ℕ) (src : List α) : List α :=
  cells.take pos ++ src ++ cells.drop (pos + src.length)

theorem splice_left {a : List α} (h : pos + src.length ≤ a.length) (b : List α) :
    splice (a ++ b) pos src = splice a pos src ++ b := by
  rw [splice, take_append_of_le_length (by omega), drop_append_of_le_length h, splice, append_assoc, append_assoc, append_assoc]

theorem splice_right (a b : List α) (pos : ℕ) (src : List α) : splice (a ++ b) (a.length + pos) src = a ++ splice b pos src := by
  rw [splice, Nat.add_assoc, take_length_add_append, drop_length_add_append, splice, append_assoc, append_assoc, append_assoc]

theorem splice_all {a : List α} (h : src.length = a.length) : splice a 0 src = src := by
  rw [splice, Nat.zero_add, h, drop_length, take_zero, nil_append, append_nil]

variable {cells : List α}

theorem length_splice (h : pos + src.length ≤ cells.length) : (splice cells pos src).length = cells.length := by
  rw [splice, length_append, length_append, length_take, length_drop]
  omega

theorem take_splice (src : List α) (h : pos ≤ cells.length) :
    (splice cells pos src).take (pos + src.length) = cells.take pos ++ src := by
  have hlength : (cells.take pos ++ src).length = pos + src.length := by
    rw [length_append, length_take, Nat.min_eq_left h]
  rw [splice, ← hlength, take_left]

def Buffer.writes (b : Buffer α n) : List (ℕ × List α) → Option (Buffer α n)
  | [] => some b
  | (pos, src) :: stores => (b.write pos src).bind fun b => b.writes stores

def splices (cells : List α) (stores : List (ℕ × List α)) : List α :=
  stores.foldl (fun cells store => splice cells store.1 store.2) cells

variable {stores : List (ℕ × List α)}

theorem Buffer.writes_eq (b : Buffer α n) (h : ∀ store ∈ stores, store.1 + store.2.length ≤ n) :
    ∃ b', b.writes stores = some b' ∧ b'.cells = splices b.cells stores := by
  induction stores generalizing b with
  | nil => exact ⟨b, rfl, rfl⟩
  | cons store stores ih =>
    have hfit := h store (mem_cons_self ..)
    obtain ⟨b', hwrites, hcells⟩ := ih ⟨splice b.cells store.1 store.2, b.splice_length hfit⟩
      fun store hstore => h store (mem_cons_of_mem _ hstore)
    refine ⟨b', ?_, hcells⟩
    rw [Buffer.writes, show b.write store.1 store.2 = some ⟨_, b.splice_length hfit⟩ from dif_pos hfit]
    exact hwrites

theorem Buffer.cells_of_writes {b' : Buffer α n} (h : b.writes stores = some b') : b'.cells = splices b.cells stores := by
  induction stores generalizing b with
  | nil =>
    cases h
    rfl
  | cons store stores ih =>
    obtain ⟨b₁, hwrite, hrest⟩ := Option.bind_eq_some_iff.mp h
    rw [Buffer.write] at hwrite
    split_ifs at hwrite with hfit
    cases hwrite
    exact ih hrest

theorem take_splices {k : ℕ} (hk : k ≤ cells.length) (h : ∀ store ∈ stores, k ≤ store.1) :
    (splices cells stores).take k = cells.take k := by
  induction stores generalizing cells with
  | nil => rfl
  | cons store stores ih =>
    have hpos := h store (mem_cons_self ..)
    have hkept : k ≤ (cells.take store.1).length := by
      rw [length_take]
      omega
    have hfirst : (splice cells store.1 store.2).take k = cells.take k := by
      rw [splice, append_assoc, take_append_of_le_length hkept, take_take, min_eq_left hpos]
    rw [splices, foldl_cons, ← hfirst]
    refine ih ?_ fun other hother => h other (mem_cons_of_mem _ hother)
    rw [splice, length_append, length_append]
    omega

theorem length_splices (h : ∀ store ∈ stores, store.1 + store.2.length ≤ cells.length) :
    (splices cells stores).length = cells.length := by
  obtain ⟨b, -, hcells⟩ := Buffer.writes_eq ⟨cells, rfl⟩ h
  rw [← hcells, b.length_eq]

theorem splices_append (cells : List α) (stores stores' : List (ℕ × List α)) :
    splices cells (stores ++ stores') = splices (splices cells stores) stores' := foldl_append

theorem splices_left {a : List α} (h : ∀ store ∈ stores, store.1 + store.2.length ≤ a.length) (b : List α) :
    splices (a ++ b) stores = splices a stores ++ b := by
  induction stores generalizing a with
  | nil => rfl
  | cons store stores ih =>
    have hfit := h store (mem_cons_self ..)
    rw [splices, foldl_cons, splice_left hfit]
    exact ih fun other hother => by
      rw [length_splice hfit]
      exact h other (mem_cons_of_mem _ hother)

theorem splices_right (a b : List α) (stores : List (ℕ × List α)) :
    splices (a ++ b) (stores.map fun store => (a.length + store.1, store.2)) = a ++ splices b stores := by
  induction stores generalizing b with
  | nil => rfl
  | cons store stores ih =>
    rw [map_cons, splices, foldl_cons, splice_right]
    exact ih _

end Amplet.FixedBuffer
