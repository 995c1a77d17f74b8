import Amplet.Numerals

/-!
# The chunked coding of HTTP

A chunk is a number in hexadecimal, a line end, as many bytes as the number says
and another line end. Where a chunk ends is decided by its first line, so that
a text is cut into chunks in one way only.
-/

namespace Amplet.ChunkedCoding
open List Bytes Numerals

def crlf : CStr := [13, 10]

def IsHexDigit (b : UInt8) : Prop := (48 ≤ b ∧ b ≤ 57) ∨ (97 ≤ b ∧ b ≤ 102)

instance (b : UInt8) : Decidable (IsHexDigit b) := inferInstanceAs (Decidable (_ ∨ _))

structure IsSize (size : CStr) : Prop where
  nonempty : size ≠ []
  digits : ∀ b ∈ size, IsHexDigit b

def IsChunk (text : CStr) : Prop :=
  ∃ size data, IsSize size ∧ data.length = valueOf 16 size ∧ text = size ++ crlf ++ data ++ crlf

/-- A text that further bytes can complete to a sequence of chunks. -/
def IsBody (text : CStr) : Prop :=
  ∃ chunks : List CStr, (∀ c ∈ chunks, IsChunk c) ∧ text <+: chunks.flatten

section

variable {size size' rest rest' text text' chunk : CStr} {n : ℕ}

@[simp] theorem length_crlf : crlf.length = 2 := rfl

theorem isSize_numeral (n : ℕ) : IsSize (numeral 16 n) where
  nonempty := numeral_ne_nil
  digits := by
    intro b hb
    obtain ⟨d, hd, rfl⟩ := numeral_digit (by decide) (by decide) hb
    interval_cases d <;> decide

theorem IsSize.not_mem (h : IsSize size) : (13 : UInt8) ∉ size := by
  intro hmem
  exact absurd (h.digits 13 hmem) (by decide)

theorem takeWhile_size (h : IsSize size) (rest : CStr) : (size ++ (crlf ++ rest)).takeWhile (· ≠ 13) = size :=
  (Delimited.takeWhile_ne_cons h.not_mem (10 :: rest)).1

theorem size_inj (h : IsSize size) (h' : IsSize size')
    (heq : size ++ (crlf ++ rest) = size' ++ (crlf ++ rest')) : size = size' ∧ rest = rest' := by
  have hsize : size = size' := by
    rw [← takeWhile_size h rest, heq, takeWhile_size h']
  subst hsize
  exact ⟨rfl, append_cancel_left (append_cancel_left heq)⟩

theorem chunk_inj (h : IsChunk text) (h' : IsChunk text') (heq : text ++ rest = text' ++ rest') :
    text = text' ∧ rest = rest' := by
  obtain ⟨size, data, hsize, hlength, rfl⟩ := h
  obtain ⟨size', data', hsize', hlength', rfl⟩ := h'
  simp only [append_assoc] at heq
  obtain ⟨rfl, hrest⟩ := size_inj hsize hsize' heq
  obtain ⟨rfl, htail⟩ := append_inj hrest (hlength.trans hlength'.symm)
  exact ⟨rfl, append_cancel_left htail⟩

theorem IsChunk.ne_nil (h : IsChunk chunk) : chunk ≠ [] := by
  obtain ⟨size, data, hsize, -, rfl⟩ := h
  simp [hsize.nonempty]

@[simp] theorem isBody_nil : IsBody [] := ⟨[], by simp, nil_prefix⟩

theorem isBody_append_iff (h : IsChunk chunk) : IsBody (chunk ++ rest) ↔ IsBody rest := by
  constructor
  · rintro ⟨chunks, hchunks, after, hafter⟩
    cases chunks with
    | nil =>
      have hnil : chunk = [] := by
        simp only [flatten_nil, append_eq_nil_iff] at hafter
        exact hafter.1.1
      exact absurd hnil h.ne_nil
    | cons c chunks =>
      rw [flatten_cons, append_assoc] at hafter
      obtain ⟨-, htail⟩ := chunk_inj h (hchunks c (mem_cons_self ..)) hafter
      exact ⟨chunks, fun d hd => hchunks d (mem_cons_of_mem _ hd), after, htail⟩
  · rintro ⟨chunks, hchunks, after, hafter⟩
    refine ⟨chunk :: chunks, ?_, after, ?_⟩
    · rintro c (_ | ⟨_, hc⟩)
      · exact h
      · exact hchunks c hc
    · rw [append_assoc, hafter, flatten_cons]

theorem isBody_crlf (hsize : IsSize size) (h : IsBody (size ++ crlf ++ rest)) :
    (rest.drop (valueOf 16 size)).take 2 <+: crlf := by
  obtain ⟨chunks, hchunks, after, hafter⟩ := h
  cases chunks with
  | nil =>
    have hnil : crlf = [] := by
      simp only [flatten_nil, append_eq_nil_iff] at hafter
      exact hafter.1.1.2
    cases hnil
  | cons c chunks =>
    obtain ⟨size', data, hsize', hlength, rfl⟩ := hchunks c (mem_cons_self ..)
    simp only [flatten_cons, append_assoc] at hafter
    obtain ⟨rfl, hrest⟩ := size_inj hsize hsize' hafter
    have hdrop := congrArg (drop (valueOf 16 size)) hrest
    rw [← hlength, drop_left] at hdrop
    have hpre : rest.drop data.length <+: crlf ++ chunks.flatten := by
      rw [← hdrop]
      exact (prefix_append rest after).drop _
    rw [← hlength]
    have htwo : (crlf ++ chunks.flatten).take 2 = crlf := take_left' rfl
    exact htwo ▸ hpre.take 2

end

end Amplet.ChunkedCoding
