import Amplet.Delimited

/-!
# Pieces of a text and where they stand

The pieces of a text between separators are listed from left to right, each with the
text before it. What a reader of the list finds last is then said about places in the
text.
-/

namespace Amplet.TextPieces
open List Delimited

section Listing

variable {α β : Type*} {l : List (List α)} {At At' : List α → List α → Prop} {piece front : List α}

/-- The list has the pieces at the places, from left to right. -/
def Listing (l : List (List α)) (At : List α → List α → Prop) : Prop :=
  ∃ places : List (List α × List α), places.map Prod.snd = l ∧ (∀ before piece, (before, piece) ∈ places ↔ At before piece) ∧
      places.Pairwise fun x y => x.1.length < y.1.length

theorem listing_nil (h : ∀ before piece, ¬ At before piece) : Listing [] At :=
  ⟨[], rfl, fun before piece => iff_of_false not_mem_nil (h before piece), .nil⟩

section

variable (h : Listing l At)
include h

theorem Listing.congr (hAt : ∀ before piece, At before piece ↔ At' before piece) : Listing l At' := by
  obtain ⟨places, hpieces, hmem, hpairwise⟩ := h
  exact ⟨places, hpieces, fun before piece => (hmem before piece).trans (hAt before piece), hpairwise⟩

theorem Listing.shift (shift : List α) : Listing l fun before piece => ∃ rest, before = shift ++ rest ∧ At rest piece := by
  obtain ⟨places, rfl, hmem, hpairwise⟩ := h
  refine ⟨places.map fun x => (shift ++ x.1, x.2), by simp, fun before piece => ?_, ?_⟩
  · simp only [mem_map, Prod.mk.injEq, Prod.exists]
    constructor
    · rintro ⟨rest, other, hplace, rfl, rfl⟩
      exact ⟨rest, rfl, (hmem rest other).mp hplace⟩
    · rintro ⟨rest, rfl, hAt⟩
      exact ⟨rest, piece, (hmem rest piece).mpr hAt, rfl, rfl⟩
  · rw [pairwise_map]
    exact hpairwise.imp fun hlt => by simpa using hlt

theorem Listing.cons (hfront : ∀ before piece, At before piece → front.length < before.length) :
    Listing (piece :: l) fun before other => (before = front ∧ other = piece) ∨ At before other := by
  obtain ⟨places, rfl, hmem, hpairwise⟩ := h
  refine ⟨(front, piece) :: places, rfl, fun before other => ?_, pairwise_cons.mpr ⟨?_, hpairwise⟩⟩
  · rw [mem_cons, Prod.mk.injEq, hmem]
  · rintro ⟨before, other⟩ hplace
    exact hfront before other ((hmem before other).mp hplace)

theorem Listing.mem_iff : piece ∈ l ↔ ∃ before, At before piece := by
  obtain ⟨places, rfl, hmem, -⟩ := h
  simp only [mem_map, Prod.exists, exists_eq_right, hmem]

theorem Listing.getLast?_iff (read : List α → Option β) (n : β) :
    (l.filterMap read).getLast? = some n ↔ ∃ before piece, At before piece ∧ read piece = some n ∧
      ∀ before' piece', At before' piece' → read piece' ≠ none → before'.length ≤ before.length := by
  obtain ⟨places, rfl, hmem, hpairwise⟩ := h
  simp only [← hmem]
  clear hmem
  induction places using reverseRecOn with
  | nil => simp
  | append_singleton places place ih =>
    obtain ⟨hplaces, -, hlast⟩ := pairwise_append.mp hpairwise
    have hbehind : ∀ x ∈ places, x.1.length < place.1.length := fun x hx => hlast x hx place (by simp)
    rw [map_append, filterMap_append]
    cases hread : read place.2 with
    | some m =>
      simp only [map_cons, map_nil, filterMap_cons, hread, filterMap_nil, getLast?_concat, Option.some.injEq]
      constructor
      · rintro rfl
        refine ⟨place.1, place.2, by simp, hread, fun before' piece' hplace _ => ?_⟩
        rcases mem_append.mp hplace with hold | hnew
        · exact (hbehind _ hold).le
        · rw [← mem_singleton.mp hnew]
      · rintro ⟨before, piece, hplace, hpiece, hmax⟩
        rcases mem_append.mp hplace with hold | hnew
        · have hle := hmax place.1 place.2 (by simp) (by simp [hread])
          exact absurd (hbehind _ hold) (not_lt.mpr hle)
        · rw [← mem_singleton.mp hnew] at hread
          exact Option.some.inj (hread.symm.trans hpiece)
    | none =>
      simp only [map_cons, map_nil, filterMap_cons, hread, filterMap_nil, append_nil, ih hplaces]
      have hiff : ∀ before piece, read piece ≠ none → ((before, piece) ∈ places ++ [place] ↔ (before, piece) ∈ places) := by
        intro before piece hsome
        rw [mem_append, mem_singleton, or_iff_left]
        rintro rfl
        exact hsome hread
      constructor
      · rintro ⟨before, piece, hplace, hpiece, hmax⟩
        refine ⟨before, piece, mem_append_left _ hplace, hpiece, fun before' piece' hplace' hsome => ?_⟩
        exact hmax before' piece' ((hiff before' piece' hsome).mp hplace') hsome
      · rintro ⟨before, piece, hplace, hpiece, hmax⟩
        refine ⟨before, piece, (hiff before piece (by simp [hpiece])).mp hplace, hpiece, fun before' piece' hplace' => ?_⟩
        exact hmax before' piece' (mem_append_left _ hplace')

end

end Listing

section Pieces

variable {α : Type*} {p : α → Bool} {l : List (List α)} {At : List α → List α → Prop}
  {text before piece behind first rest : List α} {d : α}

def pieces (p : α → Bool) (text : List α) : List (List α) := (text.splitOnP p).filter (!·.isEmpty)

/-- A longest part without separators. -/
def PieceAt (p : α → Bool) (text before piece : List α) : Prop :=
  ∃ behind, text = before ++ (piece ++ behind) ∧ piece ≠ [] ∧ (∀ b ∈ piece, p b = false) ∧
    (∀ b ∈ before.getLast?, p b = true) ∧ ∀ b ∈ behind.head?, p b = true

theorem takeWhile_piece (hpiece : ∀ b ∈ piece, p b = false) (hbehind : ∀ b ∈ behind.head?, p b = true) :
    (piece ++ behind).takeWhile (!p ·) = piece :=
  (takeWhile_append_eq (by simpa using hpiece) (by simpa using hbehind)).1

theorem pieceAt_start (hfirst : ∀ b ∈ first, p b = false) (hrest : ∀ b ∈ rest.head?, p b = true) :
    PieceAt p (first ++ rest) [] piece ↔ piece = first ∧ first ≠ [] := by
  constructor
  · rintro ⟨behind, htext, hne, hpiece, -, hbehind⟩
    rw [nil_append] at htext
    obtain rfl : first = piece := by
      rw [← takeWhile_piece hfirst hrest, htext, takeWhile_piece hpiece hbehind]
    exact ⟨rfl, hne⟩
  · rintro ⟨rfl, hne⟩
    exact ⟨rest, rfl, hne, hfirst, by simp, hrest⟩

theorem pieceAt_behind (hfirst : ∀ b ∈ first, p b = false) (hd : p d = true) (hne : before ≠ []) :
    PieceAt p (first ++ d :: rest) before piece ↔ ∃ more, before = first ++ [d] ++ more ∧ PieceAt p rest more piece := by
  constructor
  · rintro ⟨behind, htext, hpiece, hinside, hbefore, hbehind⟩
    obtain ⟨front, last, rfl⟩ := eq_nil_or_concat before |>.resolve_left hne
    rw [concat_eq_append] at htext hbefore ⊢
    have hlast : p last = true := hbefore last (by simp)
    -- the separator before the piece is not in the first part
    rcases append_eq_append_iff.mp htext with ⟨more, hfront, hrest⟩ | ⟨more, hmore, -⟩
    · cases more with
      | nil =>
        rw [append_nil] at hfront
        have hmem : last ∈ first := hfront ▸ mem_append_right _ (mem_singleton_self _)
        exact absurd hlast (by simp [hfirst last hmem])
      | cons b more =>
        cases hrest
        refine ⟨more, by simpa using hfront, behind, rfl, hpiece, hinside, fun b hb => ?_, hbehind⟩
        refine hbefore b ?_
        rw [hfront, getLast?_append, getLast?_cons]
        simp [Option.mem_def.mp hb]
    · have hmem : last ∈ first := hmore ▸ by simp
      exact absurd hlast (by simp [hfirst last hmem])
  · rintro ⟨more, rfl, behind, rfl, hpiece, hinside, hbefore, hbehind⟩
    refine ⟨behind, by simp, hpiece, hinside, fun b hb => ?_, hbehind⟩
    cases more using reverseRecOn with
    | nil => simp at hb; exact hb ▸ hd
    | append_singleton more last =>
      refine hbefore b ?_
      simpa [← append_assoc] using hb

theorem Listing.start (h : Listing l At) (hAt : ∀ before piece, At before piece → before ≠ []) (first : List α) :
    Listing ([first].filter (!·.isEmpty) ++ l) fun before piece =>
      (before = [] ∧ piece = first ∧ first ≠ []) ∨ At before piece := by
  by_cases hfirst : first = []
  · subst hfirst
    exact h.congr (by simp)
  · have hcons : Listing (first :: l) fun before piece => (before = [] ∧ piece = first) ∨ At before piece :=
      h.cons fun before piece hb => length_pos_of_ne_nil (hAt before piece hb)
    rw [filter_cons_of_pos (by simpa using hfirst), filter_nil, singleton_append]
    exact hcons.congr fun before other => by simp only [hfirst, ne_eq, not_false_iff, and_true]

theorem pieces_listing (p : α → Bool) (text : List α) : Listing (pieces p text) (PieceAt p text) := by
  generalize hlength : text.length = n
  induction n using Nat.strong_induction_on generalizing text with
  | h n ih =>
    obtain ⟨first, back, rfl, hfirst, hback⟩ := exists_split_on p text
    cases back with
    | nil =>
      have hnone : Listing [] fun _ _ : List α => False := listing_nil fun _ _ h => h
      rw [append_nil, pieces, splitOnP_eq_singleton hfirst, ← append_nil (filter ..)]
      refine (hnone.start (by simp) first).congr fun before piece => ?_
      rw [or_false]
      by_cases hnil : before = []
      · subst hnil
        rw [← append_nil first, pieceAt_start hfirst hback, append_nil, eq_self, true_and]
      · refine iff_of_false (fun h => hnil h.1) ?_
        rintro ⟨behind, htext, -, -, hbefore, -⟩
        have hlast := hbefore _ (getLast?_eq_some_getLast hnil)
        have hmem : before.getLast hnil ∈ first := htext ▸ mem_append_left _ (getLast_mem hnil)
        rw [hfirst _ hmem] at hlast
        cases hlast
    | cons d rest =>
      have hd : p d = true := hback d rfl
      have hrest := (ih rest.length (by simp [← hlength]; omega) rest rfl).shift (first ++ [d])
      rw [pieces, splitOnP_append_cons_of_forall_mem hfirst d hd, ← singleton_append, filter_append]
      refine (hrest.start (by rintro _ _ ⟨_, rfl, _⟩; simp) first).congr fun before piece => ?_
      by_cases hnil : before = []
      · subst hnil
        rw [pieceAt_start hfirst hback]
        simp
      · rw [pieceAt_behind hfirst hd hnil]
        simp [hnil]

end Pieces

end Amplet.TextPieces
