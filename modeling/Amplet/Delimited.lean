import Mathlib.Data.List.Basic
import Mathlib.Data.List.TakeWhile
import Mathlib.Tactic

/-!
# Text cut at a delimiter

The lines of a text are the parts that end in the delimiter, and what is behind
the last delimiter is unfinished. The tokens of a text are its parts that are
not empty, whether or not a delimiter follows.
-/

namespace Amplet.Delimited
open List

section Joined

variable {α : Type*} {d : α}

def joined (d : α) (ls : List (List α)) : List α := (ls.map (· ++ [d])).flatten

@[simp]
theorem joined_nil : joined d [] = [] := rfl

theorem joined_cons (l : List α) (ls : List (List α)) : joined d (l :: ls) = l ++ d :: joined d ls := by
  simp [joined]

theorem joined_append (ls ms : List (List α)) : joined d (ls ++ ms) = joined d ls ++ joined d ms := by
  simp [joined]

theorem length_le_length_joined (ls : List (List α)) : ls.length ≤ (joined d ls).length := by
  induction ls with
  | nil => exact le_rfl
  | cons l ls ih =>
    rw [joined_cons, length_append, length_cons, length_cons]
    omega

end Joined

theorem takeWhile_append_eq {α : Type*} {p : α → Bool} {text rest : List α}
    (htext : ∀ b ∈ text, p b = true) (hrest : ∀ b ∈ rest.head?, p b = false) :
    (text ++ rest).takeWhile p = text ∧ (text ++ rest).dropWhile p = rest := by
  rw [takeWhile_append_of_pos htext, dropWhile_append_of_pos htext]
  cases rest with
  | nil => simp
  | cons b rest => simp [hrest b rfl]

theorem exists_split_on {α : Type*} (p : α → Bool) (text : List α) : ∃ front back,
    text = front ++ back ∧ (∀ b ∈ front, p b = false) ∧ ∀ b ∈ back.head?, p b = true := by
  refine ⟨text.takeWhile (!p ·), text.dropWhile (!p ·), by simp, fun b hb => ?_, fun b hb => ?_⟩
  · simpa using mem_takeWhile_imp hb
  · have hstop := head?_dropWhile_not (fun b => !p b) text
    rw [Option.mem_def.mp hb] at hstop
    simpa using hstop

variable {α : Type*} [DecidableEq α] {d : α} {first rest token text : List α}

def lines (d : α) (text : List α) : List (List α) := (text.splitOn d).dropLast

def unfinished (d : α) (text : List α) : List α :=
  (text.splitOn d).getLast (splitOn_ne_nil d text)

def tokens (d : α) (text : List α) : List (List α) := (text.splitOn d).filter (· ≠ [])

theorem exists_split_at (d : α) (text : List α) : ∃ front back, text = front ++ back ∧ d ∉ front ∧ ∀ b ∈ back.head?, b = d := by
  obtain ⟨front, back, htext, hfront, hback⟩ := exists_split_on (· = d) text
  exact ⟨front, back, htext, fun hmem => by simpa using hfront d hmem, by simpa using hback⟩

theorem takeWhile_ne_append (h : d ∉ text) (hrest : ∀ b ∈ rest.head?, b = d) :
    (text ++ rest).takeWhile (· ≠ d) = text ∧ (text ++ rest).dropWhile (· ≠ d) = rest :=
  takeWhile_append_eq (fun _ hb => decide_eq_true fun heq => h (heq ▸ hb)) fun b hb => decide_eq_false (not_not.mpr (hrest b hb))

theorem takeWhile_ne_cons (h : d ∉ text) (rest : List α) : (text ++ d :: rest).takeWhile (· ≠ d) = text ∧
      (text ++ d :: rest).dropWhile (· ≠ d) = d :: rest :=
  takeWhile_ne_append h (by simp)

theorem exists_line (h : d ∈ text) : ∃ first rest, text = first ++ d :: rest ∧ d ∉ first := by
  obtain ⟨first, back, rfl, hfirst, hback⟩ := exists_split_at d text
  cases back with
  | nil => exact absurd (by simpa using h) hfirst
  | cons b rest => exact ⟨first, rest, by rw [hback b rfl], hfirst⟩

theorem first_line_unique {first' rest' : List α} (h : first ++ d :: rest = first' ++ d :: rest')
    (hfirst : d ∉ first) (hfirst' : d ∉ first') : first = first' ∧ rest = rest' := by
  obtain rfl : first = first' := by
    rw [← (takeWhile_ne_cons hfirst rest).1, h, (takeWhile_ne_cons hfirst' rest').1]
  exact ⟨rfl, cons.inj (append_cancel_left h) |>.2⟩

@[elab_as_elim]
theorem line_induction {P : List α → Prop} (d : α) (last : ∀ text, d ∉ text → P text)
    (line : ∀ first rest, d ∉ first → P rest → P (first ++ d :: rest)) (text : List α) : P text := by
  generalize hlength : text.length = n
  induction n using Nat.strong_induction_on generalizing text with
  | h n ih =>
    by_cases hd : d ∈ text
    · obtain ⟨first, rest, rfl, hfirst⟩ := exists_line hd
      have hlt : rest.length < n := by
        rw [← hlength, length_append, length_cons]
        omega
      exact line first rest hfirst (ih rest.length hlt rest rfl)
    · exact last text hd

section Lines

theorem lines_of_notMem (h : d ∉ text) : lines d text = [] := by
  rw [lines, splitOn_eq_singleton h]
  rfl

theorem unfinished_of_notMem (h : d ∉ text) : unfinished d text = text := by
  simp only [unfinished, splitOn_eq_singleton h, getLast_singleton]

theorem lines_first (h : d ∉ first) (rest : List α) : lines d (first ++ d :: rest) = first :: lines d rest := by
  rw [lines, splitOn_append_cons_self_of_not_mem h, dropLast_cons_of_ne_nil (splitOn_ne_nil d rest), lines]

theorem unfinished_first (h : d ∉ first) (rest : List α) : unfinished d (first ++ d :: rest) = unfinished d rest := by
  simp only [unfinished, splitOn_append_cons_self_of_not_mem h]
  exact getLast_cons (splitOn_ne_nil d rest)

theorem joined_lines (d : α) (text : List α) : joined d (lines d text) ++ unfinished d text = text := by
  induction text using line_induction d with
  | last text h => rw [lines_of_notMem h, unfinished_of_notMem h, joined_nil, nil_append]
  | line first rest h ih =>
    rw [lines_first h, unfinished_first h, joined_cons, append_assoc, cons_append, ih]

theorem length_line_lt {l : List α} (h : l ∈ lines d text) : l.length < text.length := by
  induction text using line_induction d with
  | last text htext =>
    rw [lines_of_notMem htext] at h
    cases h
  | line first rest hfirst ih =>
    rw [lines_first hfirst] at h
    rw [length_append, length_cons]
    rcases mem_cons.mp h with rfl | h
    · omega
    · have hlt := ih h
      omega

theorem length_lines_le (d : α) (text : List α) : (lines d text).length ≤ text.length := by
  induction text using line_induction d with
  | last text h =>
    rw [lines_of_notMem h]
    exact Nat.zero_le _
  | line first rest h ih =>
    rw [lines_first h, length_cons, length_append, length_cons]
    omega

theorem notMem_of_mem_lines {l : List α} (h : l ∈ lines d text) : d ∉ l := by
  induction text using line_induction d with
  | last text htext =>
    rw [lines_of_notMem htext] at h
    cases h
  | line first rest hfirst ih =>
    rw [lines_first hfirst] at h
    rcases mem_cons.mp h with rfl | h
    · exact hfirst
    · exact ih h

theorem length_lines (d : α) (text : List α) : (lines d text).length = text.count d := by
  induction text using line_induction d with
  | last text h => rw [lines_of_notMem h, count_eq_zero.mpr h, length_nil]
  | line first rest h ih =>
    rw [lines_first h, length_cons, ih, count_append, count_eq_zero.mpr h, count_cons_self, Nat.zero_add]

theorem lines_joined {ls : List (List α)} (h : ∀ l ∈ ls, d ∉ l) (rest : List α) :
    lines d (joined d ls ++ rest) = ls ++ lines d rest := by
  induction ls with
  | nil => rfl
  | cons l ls ih =>
    rw [joined_cons, append_assoc, cons_append, lines_first (h l (mem_cons_self ..)),
      ih fun l hl => h l (mem_cons_of_mem _ hl), cons_append]

theorem lines_append (text rest : List α) : lines d (text ++ rest) = lines d text ++ lines d (unfinished d text ++ rest) := by
  conv_lhs => rw [← joined_lines d text, append_assoc]
  exact lines_joined (fun l hl => notMem_of_mem_lines hl) _

end Lines

section Tokens

theorem tokens_append (xs ys : List α) : tokens d (xs ++ d :: ys) = tokens d xs ++ tokens d ys := by
  rw [tokens, splitOn_append_cons_self, filter_append, tokens, tokens]

@[simp]
theorem tokens_nil : tokens d [] = [] := by simp [tokens]

theorem tokens_delimiter (text : List α) : tokens d (d :: text) = tokens d text :=
  (tokens_append [] text).trans (by rw [tokens_nil, nil_append])

theorem tokens_single (h : d ∉ token) (hne : token ≠ []) : tokens d token = [token] := by
  simp [tokens, splitOn_eq_singleton h, hne]

theorem tokens_skip {skipped : List α} (h : ∀ b ∈ skipped, b = d) (text : List α) :
    tokens d (skipped ++ text) = tokens d text := by
  induction skipped with
  | nil => rfl
  | cons b skipped ih =>
    rw [cons_append, h b (mem_cons_self ..), tokens_delimiter, ih fun b hb => h b (mem_cons_of_mem _ hb)]

theorem tokens_token (h : d ∉ token) (hne : token ≠ []) (hrest : ∀ b ∈ rest.head?, b = d) :
    tokens d (token ++ rest) = token :: tokens d rest.tail := by
  cases rest with
  | nil => simpa using tokens_single h hne
  | cons b rest =>
    rw [hrest b rfl, tokens_append, tokens_single h hne]
    rfl

theorem ne_nil_of_mem_tokens (h : token ∈ tokens d text) : token ≠ [] := by
  simpa using (mem_filter.mp h).2

theorem exists_token (d : α) (text : List α) : (∀ b ∈ text, b = d) ∨
    ∃ skipped token rest, text = skipped ++ (token ++ rest) ∧ (∀ b ∈ skipped, b = d) ∧
      token ≠ [] ∧ d ∉ token ∧ ∀ b ∈ rest.head?, b = d := by
  induction text with
  | nil => exact .inl fun b hb => absurd hb not_mem_nil
  | cons b text ih =>
    by_cases hb : b = d
    · rcases ih with hall | ⟨skipped, token, rest, rfl, hskipped, htoken⟩
      · exact .inl (forall_mem_cons.mpr ⟨hb, hall⟩)
      · exact .inr ⟨b :: skipped, token, rest, rfl, forall_mem_cons.mpr ⟨hb, hskipped⟩, htoken⟩
    · obtain ⟨front, back, rfl, hfront, hback⟩ := exists_split_at d text
      refine .inr ⟨[], b :: front, back, rfl, by simp, by simp, ?_, hback⟩
      exact not_mem_cons_of_ne_of_not_mem (Ne.symm hb) hfront

theorem tokens_eq_nil_iff : tokens d text = [] ↔ ∀ b ∈ text, b = d := by
  constructor
  · intro h
    rcases exists_token d text with hall | ⟨skipped, token, rest, rfl, hskipped, hne, htoken, hrest⟩
    · exact hall
    · rw [tokens_skip hskipped, tokens_token htoken hne hrest] at h
      cases h
  · intro hall
    have hskip := tokens_skip hall []
    rwa [append_nil, tokens_nil] at hskip

theorem tokens_eq_cons {more : List (List α)} (h : tokens d text = token :: more) :
    ∃ skipped rest, text = skipped ++ (token ++ rest) ∧ (∀ b ∈ skipped, b = d) ∧ token ≠ [] ∧
      d ∉ token ∧ (∀ b ∈ rest.head?, b = d) ∧ more = tokens d rest.tail := by
  rcases exists_token d text with hall | ⟨skipped, token', rest, htext, hskipped, hne, htoken, hrest⟩
  · rw [tokens_eq_nil_iff.mpr hall] at h
    cases h
  · rw [htext, tokens_skip hskipped, tokens_token htoken hne hrest] at h
    cases h
    exact ⟨skipped, rest, htext, hskipped, hne, htoken, hrest, rfl⟩

theorem length_token_lt {more : List (List α)} (h : tokens d text = token :: more) (hd : d ∈ text) :
    token.length < text.length := by
  obtain ⟨skipped, rest, rfl, -, -, htoken, -, -⟩ := tokens_eq_cons h
  -- the delimiter is before the token or behind it
  have hother : 0 < skipped.length + rest.length := by
    rcases mem_append.mp hd with hmem | hmem
    · exact Nat.add_pos_left (length_pos_of_mem hmem) _
    · have hrest := (mem_append.mp hmem).resolve_left htoken
      exact Nat.add_pos_right _ (length_pos_of_mem hrest)
  simp only [length_append]
  omega

end Tokens

end Amplet.Delimited
