import Amplet.Delimited

/-!
# C strings as byte lists

A C string is the list of its bytes before the terminating NUL. `strrchr` reports an
offset, so that the pointer comparisons of the source become comparisons of offsets.
`strtok` writes a NUL over the delimiter it stops at, so a tokenised buffer reads
differently afterwards.
-/

namespace Amplet.Bytes
open List

abbrev CStr := List UInt8

def cstr (s : String) : CStr := s.toList.map Char.toUInt8

def newline : UInt8 := 10
def space : UInt8 := 32
def doubleQuote : UInt8 := 34
def singleQuote : UInt8 := 39
def dot : UInt8 := 46
def slash : UInt8 := 47
def backslash : UInt8 := 92

def strrchr (c : UInt8) : CStr → Option ℕ
  | [] => none
  | b :: s =>
    match strrchr c s with
    | some i => some (i + 1)
    | none => if b = c then some 0 else none

variable {s : CStr} {n : ℕ}

theorem strrchr_eq_none {c : UInt8} (h : c ∉ s) : strrchr c s = none := by
  induction s with
  | nil => rfl
  | cons b s ih =>
    simp only [mem_cons, not_or] at h
    simp [strrchr, ih h.2, Ne.symm h.1]

theorem strrchr_append_cons {c : UInt8} (a : CStr) {b : CStr} (h : c ∉ b) : strrchr c (a ++ c :: b) = some a.length := by
  induction a with
  | nil => simp [strrchr, strrchr_eq_none h]
  | cons x a ih => simp [strrchr, ih]

theorem last_split (c : UInt8) (s : CStr) : c ∉ s ∨ ∃ a b, s = a ++ c :: b ∧ c ∉ b := by
  induction s with
  | nil => exact Or.inl not_mem_nil
  | cons x s ih =>
    rcases ih with h | ⟨a, b, rfl, hb⟩
    · by_cases hx : x = c
      · exact Or.inr ⟨[], s, by simp [hx], h⟩
      · exact Or.inl (by simp [h, Ne.symm hx])
    · exact Or.inr ⟨x :: a, b, by simp, hb⟩

theorem forall_byte {P : UInt8 → Prop} (h : ∀ n : Fin 256, P (UInt8.ofNat n)) (b : UInt8) : P b := by
  have hb := h ⟨b.toNat, b.toNat_lt⟩
  rwa [UInt8.ofNat_toNat] at hb

def tolower (b : UInt8) : UInt8 := if 65 ≤ b ∧ b ≤ 90 then b + 32 else b

/-- Difference of the first pair of bytes that differ after `tolower`, with the
terminating NUL in place of a missing byte. -/
def strcasecmp : CStr → CStr → ℤ
  | [], [] => 0
  | a :: _, [] => (tolower a).toNat
  | [], b :: _ => -((tolower b).toNat : ℤ)
  | a :: s, b :: t =>
    if tolower a = tolower b then strcasecmp s t else (tolower a).toNat - (tolower b).toNat

/-- The token and the text behind the delimiter that ends it. -/
def strtok (delimiters : List UInt8) (s : CStr) : Option (CStr × CStr) :=
  match s.dropWhile (· ∈ delimiters) with
  | [] => none
  | b :: t =>
    some ((b :: t).takeWhile (· ∉ delimiters), ((b :: t).dropWhile (· ∉ delimiters)).drop 1)

def strtokResidue (delimiters : List UInt8) (s : CStr) : CStr :=
  s.takeWhile (· ∈ delimiters) ++ (s.dropWhile (· ∈ delimiters)).takeWhile (· ∉ delimiters)

section Strtok

variable {delimiters : List UInt8} {skipped name rest : CStr}

/-- A text up to its first token, the token, and the rest. -/
structure FirstToken (delimiters : List UInt8) (skipped name rest : CStr) : Prop where
  before : ∀ b ∈ skipped, b ∈ delimiters
  inside : ∀ b ∈ name, b ∉ delimiters
  ended : ∀ b ∈ rest.head?, b ∈ delimiters
  missing : name = [] → rest = []

theorem exists_firstToken (delimiters : List UInt8) (s : CStr) :
    ∃ skipped name rest, s = skipped ++ (name ++ rest) ∧ FirstToken delimiters skipped name rest := by
  obtain ⟨skipped, text, rfl, hskipped, htext⟩ := Delimited.exists_split_on (· ∉ delimiters) s
  obtain ⟨name, rest, rfl, hname, hrest⟩ := Delimited.exists_split_on (· ∈ delimiters) text
  refine ⟨skipped, name, rest, rfl, by simpa using hskipped, by simpa using hname, by simpa using hrest, ?_⟩
  rintro rfl
  cases rest with
  | nil => rfl
  | cons b rest =>
    have hout := htext b rfl
    have hin := hrest b rfl
    simp only [decide_eq_true_eq] at hout hin
    exact absurd hin hout

section

variable (h : FirstToken delimiters skipped name rest)
include h

theorem FirstToken.skip : (skipped ++ (name ++ rest)).takeWhile (· ∈ delimiters) = skipped ∧
    (skipped ++ (name ++ rest)).dropWhile (· ∈ delimiters) = name ++ rest := by
  refine Delimited.takeWhile_append_eq (by simpa using h.before) ?_
  cases name with
  | nil => simp [h.missing rfl]
  | cons b t => simpa using h.inside b (mem_cons_self ..)

theorem FirstToken.take : (name ++ rest).takeWhile (· ∉ delimiters) = name ∧ (name ++ rest).dropWhile (· ∉ delimiters) = rest :=
  Delimited.takeWhile_append_eq (by simpa using h.inside) (by simpa using h.ended)

theorem FirstToken.strtok_eq (hne : name ≠ []) : strtok delimiters (skipped ++ (name ++ rest)) = some (name, rest.drop 1) := by
  obtain ⟨b, t, rfl⟩ := exists_cons_of_ne_nil hne
  obtain ⟨htake, hdrop⟩ := h.take
  rw [cons_append] at htake hdrop
  rw [strtok, h.skip.2, cons_append]
  dsimp only
  rw [htake, hdrop]

theorem FirstToken.unique {skipped' name' rest' : CStr} (h' : FirstToken delimiters skipped' name' rest')
    (heq : skipped ++ (name ++ rest) = skipped' ++ (name' ++ rest')) :
    skipped = skipped' ∧ name = name' ∧ rest = rest' := by
  obtain rfl : skipped = skipped' := by rw [← h.skip.1, heq, h'.skip.1]
  have hback := append_cancel_left heq
  obtain rfl : name = name' := by rw [← h.take.1, hback, h'.take.1]
  exact ⟨rfl, rfl, append_cancel_left hback⟩

theorem FirstToken.residue : strtokResidue delimiters (skipped ++ (name ++ rest)) = skipped ++ name := by
  rw [strtokResidue, h.skip.1, h.skip.2, h.take.1]

end

theorem strtok_eq_none_iff {s : CStr} : strtok delimiters s = none ↔ ∀ b ∈ s, b ∈ delimiters := by
  rw [strtok]
  constructor
  · intro h
    split at h
    next hdrop => simpa using dropWhile_eq_nil_iff.mp hdrop
    next => cases h
  · intro h
    have hdrop : s.dropWhile (· ∈ delimiters) = [] :=
      dropWhile_eq_nil_iff.mpr fun x hx => by simpa using h x hx
    rw [hdrop]

theorem exists_of_strtok {s : CStr} (h : strtok delimiters s = some (name, rest)) :
    ∃ skipped back, s = skipped ++ (name ++ back) ∧ name ≠ [] ∧ rest = back.drop 1 ∧
      FirstToken delimiters skipped name back := by
  obtain ⟨skipped, token, back, rfl, hfirst⟩ := exists_firstToken delimiters s
  by_cases hne : token = []
  · have hnone : strtok delimiters (skipped ++ (token ++ back)) = none := by
      rw [hfirst.missing hne, hne]
      exact strtok_eq_none_iff.mpr (by simpa using hfirst.before)
    rw [hnone] at h
    cases h
  · rw [hfirst.strtok_eq hne] at h
    cases h
    exact ⟨skipped, back, rfl, hne, rfl, hfirst⟩

theorem FirstToken.other_rest {d : UInt8} (h : FirstToken delimiters skipped name (d :: rest)) (hne : name ≠ [])
    (rest' : CStr) : FirstToken delimiters skipped name (d :: rest') :=
  ⟨h.before, h.inside, h.ended, fun hnil => absurd hnil hne⟩

theorem FirstToken.whole (h : FirstToken delimiters skipped name rest) : FirstToken delimiters skipped name [] :=
  ⟨h.before, h.inside, by simp, fun _ => rfl⟩

theorem strtokResidue_strtokResidue (delimiters : List UInt8) (s : CStr) :
    strtokResidue delimiters (strtokResidue delimiters s) = strtokResidue delimiters s := by
  obtain ⟨skipped, name, rest, rfl, h⟩ := exists_firstToken delimiters s
  have hagain := h.whole.residue
  rw [append_nil] at hagain
  rw [h.residue, hagain]

theorem strtok_strtokResidue {s : CStr} (h : strtok delimiters s = some (name, rest)) :
    strtok delimiters (strtokResidue delimiters s) = some (name, []) := by
  obtain ⟨skipped, back, rfl, hne, -, hfirst⟩ := exists_of_strtok h
  have hagain := hfirst.whole.strtok_eq hne
  rw [append_nil] at hagain
  rw [hfirst.residue, hagain, drop_nil]

variable {delim : UInt8}

section

variable (hne : name ≠ []) (h : delim ∉ name)
include hne h

theorem firstToken_of_not_mem (hrest : ∀ b ∈ rest.head?, b = delim) : FirstToken [delim] [] name rest :=
  ⟨by simp, fun b hb heq => h (mem_singleton.mp heq ▸ hb),
    fun b hb => mem_singleton.mpr (hrest b hb), fun hnil => absurd hnil hne⟩

theorem strtok_of_not_mem : strtok [delim] name = some (name, []) := by
  have hwhole : strtok [delim] (name ++ []) = some (name, []) :=
    (firstToken_of_not_mem hne h (by simp)).strtok_eq hne
  rwa [append_nil] at hwhole

theorem strtok_append_cons (rest : CStr) : strtok [delim] (name ++ delim :: rest) = some (name, rest) :=
  (firstToken_of_not_mem hne h (by simp)).strtok_eq hne

end

end Strtok

def isspace (b : UInt8) : Bool := b = 32 || (9 ≤ b && b ≤ 13)

def isdigit (b : UInt8) : Bool := 48 ≤ b && b ≤ 57

def digitsValue (s : CStr) : ℕ :=
  (s.takeWhile isdigit).foldl (fun n b => 10 * n + (b.toNat - 48)) 0

/-- `strtol` in base ten, which saturates at the ends of `long`. -/
def strtol (s : CStr) : ℤ :=
  match s.dropWhile isspace with
  | [] => 0
  | b :: t =>
    if b = 45 then max (-2 ^ 63) (-(digitsValue t : ℤ))
    else min (2 ^ 63 - 1) (digitsValue (if b = 43 then t else b :: t))

def atoi (s : CStr) : ℤ := (strtol s).bmod (2 ^ 32)

/-- The decimal text of a number, as `printf` writes it; zero is empty here. -/
def decimal (n : ℕ) : CStr := (Nat.digits 10 n).reverse.map fun d => UInt8.ofNat (48 + d)

theorem isdigit_decimal {b : UInt8} (hb : b ∈ decimal n) : isdigit b = true := by
  obtain ⟨d, hd, rfl⟩ := mem_map.mp hb
  have hlt : d < 10 := Nat.digits_lt_base (by norm_num) (mem_reverse.mp hd)
  interval_cases d <;> decide

theorem digitsValue_decimal (n : ℕ) : digitsValue (decimal n) = n := by
  rw [digitsValue, takeWhile_eq_self_iff.mpr fun b hb => isdigit_decimal hb, decimal, foldl_map, foldl_reverse]
  have hfold : ∀ l : List ℕ, (∀ d ∈ l, d < 10) → l.foldr (fun d acc => 10 * acc + ((UInt8.ofNat (48 + d)).toNat - 48)) 0 =
        Nat.ofDigits 10 l := by
    intro l hl
    induction l with
    | nil => rfl
    | cons d l ih =>
      have hd := hl d (mem_cons_self ..)
      rw [foldr_cons, ih fun x hx => hl x (mem_cons_of_mem _ hx), Nat.ofDigits_cons, UInt8.toNat_ofNat']
      omega
  rw [hfold _ fun d hd => Nat.digits_lt_base (by norm_num) hd, Nat.ofDigits_digits]

theorem decimal_ne_nil (h : n ≠ 0) : decimal n ≠ [] := by
  simpa [decimal] using Nat.digits_ne_nil_iff_ne_zero.mpr h

theorem isdigit_sign {b : UInt8} (h : isdigit b = true) : isspace b = false ∧ b ≠ 45 ∧ b ≠ 43 := by
  simp only [isdigit, Bool.and_eq_true, decide_eq_true_eq, UInt8.le_iff_toNat_le] at h
  simp only [isspace, Bool.or_eq_false_iff, Bool.and_eq_false_iff, decide_eq_false_iff_not,
    UInt8.le_iff_toNat_le, ← UInt8.toNat_inj, ne_eq]
  simp only [UInt8.reduceToNat] at h ⊢
  omega

theorem strtol_decimal (hpos : n ≠ 0) : strtol (decimal n) = (min n (2 ^ 63 - 1) : ℕ) := by
  obtain ⟨b, t, hbt⟩ := exists_cons_of_ne_nil (decimal_ne_nil hpos)
  have hb : isdigit b = true := isdigit_decimal (hbt ▸ mem_cons_self ..)
  obtain ⟨hspace, hminus, hplus⟩ := isdigit_sign hb
  have hvalue := digitsValue_decimal n
  rw [hbt] at hvalue
  rw [strtol, hbt, dropWhile_cons_of_neg (by simp [hspace])]
  simp only [if_neg hminus, if_neg hplus, hvalue]
  omega

end Amplet.Bytes
