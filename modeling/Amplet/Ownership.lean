import Mathlib.Data.List.Basic
import Mathlib.Data.List.Nodup
import Mathlib.Tactic

/-!
# Cells with one owner

Heap cells are numbered in the order of their allocation; a freed cell holds nothing.
When owners refer to distinct live cells, any of them can be released, in any order, and
the cells of the others keep their contents.
-/

namespace Amplet.Ownership
open List

variable {α β : Type*} {r : ℕ}

def readCell (cells : List (Option β)) (r : ℕ) : Option β := cells[r]?.join

theorem readCell_append {cells : List (Option β)} (h : r < cells.length) (more : List (Option β)) :
    readCell (cells ++ more) r = readCell cells r := by
  rw [readCell, getElem?_append_left h, readCell]

theorem readCell_append_self (cells : List (Option β)) (v : β) : readCell (cells ++ [some v]) cells.length = some v := by
  simp [readCell]

theorem readCell_set_self (cells : List (Option β)) (r : ℕ) : readCell (cells.set r none) r = none := by
  rw [readCell, getElem?_set_self']
  cases cells[r]? <;> rfl

theorem readCell_set_ne {q : ℕ} (h : r ≠ q) (cells : List (Option β)) : readCell (cells.set r none) q = readCell cells q := by
  rw [readCell, getElem?_set_ne h, readCell]

theorem lt_length_of_readCell {cells : List (Option β)} (h : (readCell cells r).isSome) : r < cells.length := by
  by_contra hr
  simp [readCell, getElem?_eq_none (not_lt.mp hr)] at h

section Owners

variable (ref : α → Option ℕ) {owners' : List α} {a : α}

def releaseOwner (cells : List (Option β)) (a : α) : Option (List (Option β)) :=
  match ref a with
  | none => some cells
  | some r => if (readCell cells r).isSome then some (cells.set r none) else none

def contents (cells : List (Option β)) (a : α) : Option β := (ref a).bind (readCell cells)

structure Owned (cells : List (Option β)) (owners : List α) : Prop where
  distinct : (owners.filterMap ref).Nodup
  live : ∀ r ∈ owners.filterMap ref, (readCell cells r).isSome

variable {ref} {cells : List (Option β)} {owners : List α}

theorem Owned.nil : Owned ref cells [] := ⟨by simp, by simp⟩

theorem owned_congr (h : owners.filterMap ref = owners'.filterMap ref) : Owned ref cells owners ↔ Owned ref cells owners' :=
  ⟨fun ho => ⟨h ▸ ho.distinct, h ▸ ho.live⟩, fun ho => ⟨h.symm ▸ ho.distinct, h.symm ▸ ho.live⟩⟩

theorem Owned.perm (h : Owned ref cells owners) (hp : owners.Perm owners') : Owned ref cells owners' :=
  ⟨(hp.filterMap ref).nodup_iff.mp h.distinct, fun r hr => h.live r ((hp.filterMap ref).mem_iff.mpr hr)⟩

theorem Owned.sublist (h : Owned ref cells owners) (hs : owners'.Sublist owners) : Owned ref cells owners' :=
  ⟨h.distinct.sublist (hs.filterMap ref), fun r hr => h.live r ((hs.filterMap ref).subset hr)⟩

theorem Owned.alloc (h : Owned ref cells owners) (v : β) : Owned ref (cells ++ [some v]) owners := by
  refine ⟨h.distinct, fun r hr => ?_⟩
  have hlive := h.live r hr
  rwa [readCell_append (lt_length_of_readCell hlive)]

theorem owned_append_none {more : List α} (h : ∀ a ∈ more, ref a = none) :
    Owned ref cells (owners ++ more) ↔ Owned ref cells owners := by
  have hmore : more.filterMap ref = [] := filterMap_eq_nil_iff.mpr h
  exact owned_congr (by rw [filterMap_append, hmore, append_nil])

theorem Owned.append_fresh (h : Owned ref cells owners) (v : β) (ha : ref a = some cells.length) :
    Owned ref (cells ++ [some v]) (owners ++ [a]) := by
  have hrefs : (owners ++ [a]).filterMap ref = owners.filterMap ref ++ [cells.length] := by
    simp [ha]
  have hfresh : cells.length ∉ owners.filterMap ref := fun hmem =>
    (lt_length_of_readCell (h.live _ hmem)).false
  constructor
  · rw [hrefs]
    exact h.distinct.append (nodup_singleton _) (disjoint_singleton.mpr hfresh)
  · intro r hr
    rw [hrefs, mem_append, mem_singleton] at hr
    rcases hr with hr | rfl
    · exact (h.alloc v).live r hr
    · rw [readCell_append_self]
      rfl

theorem Owned.ref_ne {b : α} (h : Owned ref cells owners) (hsub : [a, b].Sublist owners)
    (ha : ref a = some r) : ref b ≠ some r := by
  intro hb
  have hd := (h.sublist hsub).distinct
  simp [ha, hb] at hd

theorem Owned.release (h : Owned ref cells (a :: owners)) :
    ∃ cells', releaseOwner ref cells a = some cells' ∧ Owned ref cells' owners ∧
      ∀ b ∈ owners, contents ref cells' b = contents ref cells b := by
  have hrest := h.sublist (sublist_cons_self a owners)
  cases ha : ref a with
  | none => exact ⟨cells, by simp [releaseOwner, ha], hrest, fun _ _ => rfl⟩
  | some r =>
    have hd := h.distinct
    have hlive := h.live r (by simp [ha])
    rw [filterMap_cons_some ha, nodup_cons] at hd
    have hne : ∀ q ∈ owners.filterMap ref, r ≠ q := fun q hq hrq => hd.1 (hrq ▸ hq)
    refine ⟨cells.set r none, by simp [releaseOwner, ha, hlive], ⟨hd.2, fun q hq => ?_⟩, ?_⟩
    · rw [readCell_set_ne (hne q hq)]
      exact hrest.live q hq
    · intro b hb
      cases hq : ref b with
      | none => simp [contents, hq]
      | some q =>
        simp only [contents, hq, Option.bind_some]
        exact readCell_set_ne (hne q (mem_filterMap.mpr ⟨b, hb, hq⟩)) cells

theorem Owned.releaseAll {gone kept : List α} (h : Owned ref cells (gone ++ kept)) :
    ∃ cells', gone.foldlM (releaseOwner ref) cells = some cells' ∧ Owned ref cells' kept ∧
      ∀ b ∈ kept, contents ref cells' b = contents ref cells b := by
  induction gone generalizing cells with
  | nil => exact ⟨cells, rfl, h, fun _ _ => rfl⟩
  | cons a gone ih =>
    obtain ⟨cells₁, hfree, howned, hsame⟩ := Owned.release (a := a) h
    obtain ⟨cells₂, hfold, howned₂, hsame₂⟩ := ih howned
    refine ⟨cells₂, by simp [foldlM_cons, hfree, hfold], howned₂, fun b hb => ?_⟩
    rw [hsame₂ b hb, hsame b (mem_append_right _ hb)]

end Owners

end Amplet.Ownership
