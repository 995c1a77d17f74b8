import Amplet.HttpUrl
import Amplet.Numerals

/-!
# Code points given as text

Embedding of `parse_dscp_value` in `src/common/dscp.c`. A name is recognised by the
start of the text. Any other text is converted with `strtol` in base two, and then in
the notation of C; the result is narrowed to `int` and compared only with the largest
code point.
-/

namespace Amplet.DscpValues
open List Option Bytes Numerals HttpUrl

def codePoints : List (CStr × UInt8) :=
  [(cstr "cs0", 0), (cstr "none", 0), (cstr "default", 0), (cstr "cs1", 0b001000),
    (cstr "cs2", 0b010000), (cstr "cs3", 0b011000), (cstr "cs4", 0b100000),
    (cstr "cs5", 0b101000), (cstr "cs6", 0b110000), (cstr "cs7", 0b111000),
    (cstr "af11", 0b001010), (cstr "af12", 0b001100), (cstr "af13", 0b001110),
    (cstr "af21", 0b010010), (cstr "af22", 0b010100), (cstr "af23", 0b010110),
    (cstr "af31", 0b011010), (cstr "af32", 0b011100), (cstr "af33", 0b011110),
    (cstr "af41", 0b100010), (cstr "af42", 0b100100), (cstr "af43", 0b100110),
    (cstr "va", 0b101100), (cstr "ef", 0b101110)]

def convert (base : ℕ) (value : CStr) : Option ℤ :=
  let conversion := strtolBase base value
  let converted := conversion.value.bmod (2 ^ 32)
  if conversion.range ∨ conversion.rest ≠ [] ∨ 64 ≤ converted then none else some converted

def parseDscpValue (value : CStr) : ℤ × UInt8 :=
  match codePoints.find? fun entry => startsWith entry.1 value with
  | some entry => (0, entry.2)
  | none =>
    match (convert 2 value).orElse fun _ => convert 0 value with
    | some converted => (0, UInt8.ofInt converted)
    | none => (-1, 0)

inductive Numeral : CStr → ℕ → Prop
  | binary {s : CStr} (hne : s ≠ []) (h : ∀ b ∈ s, digitValue b < 2) : Numeral s (valueOf 2 s)
  | octal {s : CStr} (h : ∀ b ∈ s, digitValue b < 8) : Numeral (48 :: s) (valueOf 8 (48 :: s))
  | decimal {s : CStr} (hne : s ≠ []) (hzero : s.head? ≠ some 48) (h : ∀ b ∈ s, digitValue b < 10) :
      Numeral s (valueOf 10 s)
  | hexadecimal {x : UInt8} {s : CStr} (hx : x = 120 ∨ x = 88) (hne : s ≠ [])
      (h : ∀ b ∈ s, digitValue b < 16) : Numeral (48 :: x :: s) (valueOf 16 s)

inductive CodePoint : CStr → ℕ → Prop
  | name {s name : CStr} {v : UInt8} (hentry : (name, v) ∈ codePoints) (hs : s.map tolower = name) :
      CodePoint s v.toNat
  | numeral {s : CStr} {n : ℕ} (h : Numeral s n) (hn : n < 64) : CodePoint s n

def Plain (s : CStr) : Prop := ∀ b ∈ s.head?, isspace b = false ∧ b ≠ 45 ∧ b ≠ 43

variable {s : CStr}

theorem splitSign_of_plain (h : Plain s) : splitSign (s.dropWhile isspace) = (false, s) := by
  cases s with
  | nil => rfl
  | cons b s =>
    obtain ⟨hspace, hminus, hplus⟩ := h b rfl
    rw [dropWhile_cons_of_neg (by simp [hspace])]
    unfold splitSign
    split
    · rename_i heq
      exact absurd (cons.inj heq).1 hminus
    · rename_i heq
      exact absurd (cons.inj heq).1 hplus
    · rfl

variable {base : ℕ}

theorem spells_of_enters {v : ℤ} (hplain : Plain s) (h : Enters base s v) : ∃ n : ℕ, Spells base s n ∧ v = n := by
  obtain ⟨n, hspells, rfl⟩ := h
  rw [splitSign_of_plain hplain] at hspells ⊢
  exact ⟨n, hspells, rfl⟩

variable {n : ℕ}

theorem enters_of_spells (hplain : Plain s) (h : Spells base s n) :
    Enters base s n := by
  refine ⟨n, ?_, ?_⟩
  · rwa [splitSign_of_plain hplain]
  · rw [splitSign_of_plain hplain]
    rfl

theorem spells_two_iff : Spells 2 s n ↔ s ≠ [] ∧ (∀ b ∈ s, digitValue b < 2) ∧ n = valueOf 2 s :=
  Iff.rfl

theorem numeral_of_spells (h : Spells 0 s n) : Numeral s n := by
  obtain ⟨hne, hdigits, rfl⟩ := h
  by_cases hzero : s.head? = some 48
  · obtain ⟨t, rfl⟩ := head?_eq_some_iff.1 hzero
    by_cases hmark : ∃ x d u, t = x :: d :: u ∧ (x = 120 ∨ x = 88) ∧ digitValue d < 16
    · obtain ⟨x, d, u, rfl, hx, hd⟩ := hmark
      rw [radix_hexadecimal hx hd] at hdigits ⊢
      exact .hexadecimal hx (cons_ne_nil d u) hdigits
    · have hoctal : radix 0 (48 :: t) = (8, 48 :: t) := by
        exact radix_octal fun x d u ht hboth => hmark ⟨x, d, u, ht, hboth⟩
      rw [hoctal] at hdigits ⊢
      exact .octal fun b hb => hdigits b (mem_cons_of_mem _ hb)
  · rw [radix_decimal hzero] at hne hdigits ⊢
    exact .decimal hne hzero hdigits

theorem spells_of_numeral (h : Numeral s n) : Spells 2 s n ∨ Spells 0 s n := by
  cases h with
  | binary hne h => exact .inl ⟨hne, h, rfl⟩
  | @octal s h =>
    have hoctal := radix_zero_cons h
    refine .inr ⟨?_, ?_, ?_⟩
    · rw [hoctal]
      exact cons_ne_nil _ _
    · rw [hoctal]
      exact forall_mem_cons.2 ⟨show digitValue 48 < 8 by decide, h⟩
    · rw [hoctal]
  | decimal hne hzero h =>
    refine .inr ⟨?_, ?_, ?_⟩
    · rwa [radix_decimal hzero]
    · rwa [radix_decimal hzero]
    · rw [radix_decimal hzero]
  | @hexadecimal x s hx hne h =>
    obtain ⟨d, t, rfl⟩ := exists_cons_of_ne_nil hne
    have hhex := radix_hexadecimal hx (h d mem_cons_self) t
    refine .inr ⟨?_, ?_, ?_⟩
    · rw [hhex]
      exact cons_ne_nil _ _
    · rwa [hhex]
    · rw [hhex]

theorem numeral_head (h : Numeral s n) : ∃ b t, s = b :: t ∧ digitValue b < 10 := by
  cases h with
  | binary hne h =>
    obtain ⟨b, t, rfl⟩ := exists_cons_of_ne_nil hne
    exact ⟨b, t, rfl, (h b mem_cons_self).trans (by decide)⟩
  | octal _ => exact ⟨_, _, rfl, by decide⟩
  | decimal hne _ h =>
    obtain ⟨b, t, rfl⟩ := exists_cons_of_ne_nil hne
    exact ⟨b, t, rfl, h b mem_cons_self⟩
  | hexadecimal _ _ _ => exact ⟨_, _, rfl, by decide⟩

theorem numeral_plain (h : Numeral s n) : Plain s := by
  obtain ⟨b, t, rfl, hb⟩ := numeral_head h
  intro c hc
  cases hc
  exact digitValue_plain (hb.trans (by decide))

theorem spells_both {m : ℕ} (htwo : Spells 2 s m) (hzero : Spells 0 s n) : m ≤ n ∧ n ≤ m ^ 4 := by
  obtain ⟨hne, hdigits, rfl⟩ := spells_two_iff.1 htwo
  obtain ⟨-, -, rfl⟩ := hzero
  have hten := valueOf_ten_le hdigits
  by_cases hhead : s.head? = some 48
  · obtain ⟨t, rfl⟩ := head?_eq_some_iff.1 hhead
    have hoctal : radix 0 (48 :: t) = (8, 48 :: t) :=
      radix_zero_cons fun b hb => (hdigits b (mem_cons_of_mem _ hb)).trans (by decide)
    rw [hoctal]
    dsimp only
    exact ⟨valueOf_le_valueOf (by decide) _, (valueOf_le_valueOf (by decide) _).trans hten⟩
  · rw [radix_decimal hhead]
    dsimp only
    exact ⟨valueOf_le_valueOf (by decide) _, hten⟩

theorem spells_unique {m : ℕ} (hm : Spells base s m) (hn : Spells base s n) : m = n :=
  hm.2.2.trans hn.2.2.symm

theorem convert_eq_some_iff {c : ℤ} : convert base s = some c ↔ (s = [] ∧ c = 0) ∨
      ∃ v, Enters base s v ∧ -2 ^ 63 ≤ v ∧ v < 2 ^ 63 ∧ v.bmod (2 ^ 32) < 64 ∧ c = v.bmod (2 ^ 32) := by
  unfold convert
  dsimp only
  constructor
  · intro h
    split_ifs at h with hfail
    rw [not_or, not_or, not_not, not_le, Bool.not_eq_true] at hfail
    obtain ⟨hrange, hrest, hlt⟩ := hfail
    have hwhole : strtolBase base s = ⟨(strtolBase base s).value, [], false⟩ := by
      rw [← hrange, ← hrest]
    cases h
    rcases strtolBase_eq.1 hwhole with ⟨hnil, hzero⟩ | ⟨henters, hlo, hhi⟩
    · exact .inl ⟨hnil, by rw [hzero]; rfl⟩
    · exact .inr ⟨_, henters, hlo, hhi, hlt, rfl⟩
  · rintro (⟨hnil, rfl⟩ | ⟨v, henters, hlo, hhi, hlt, rfl⟩)
    · rw [strtolBase_eq.2 (.inl ⟨hnil, rfl⟩)]
      exact if_neg (by decide)
    · rw [strtolBase_eq.2 (.inr ⟨henters, hlo, hhi⟩)]
      refine if_neg ?_
      rw [not_or, not_or, not_le]
      exact ⟨Bool.false_ne_true, fun h => h rfl, hlt⟩

theorem names_lower : ∀ entry ∈ codePoints, entry.1.map tolower = entry.1 := by decide

theorem names_apart : ∀ entry ∈ codePoints, ∀ other ∈ codePoints, entry.1.isPrefixOf other.1 → entry.1 = other.1 := by decide

theorem codePoints_lt : ∀ entry ∈ codePoints, entry.2.toNat < 64 := by decide

theorem names_head : ∀ entry ∈ codePoints, entry.1.head?.any (fun b => 97 ≤ b ∧ b ≤ 122) := by decide

variable {entry : CStr × UInt8}

theorem startsWith_iff (hentry : entry ∈ codePoints) : startsWith entry.1 s ↔ entry.1 <+: s.map tolower := by
  rw [startsWith, names_lower entry hentry, map_take, prefix_iff_eq_take]
  exact eq_comm

theorem digitValue_letter (b : UInt8) (h : 97 ≤ tolower b ∧ tolower b ≤ 122) : 10 ≤ digitValue b ∧ digitValue b < 36 :=
  forall_byte (P := fun b => 97 ≤ tolower b ∧ tolower b ≤ 122 → 10 ≤ digitValue b ∧ digitValue b < 36) (by decide +kernel) b h

theorem letter_of_startsWith (hentry : entry ∈ codePoints) (h : startsWith entry.1 s) :
    ∃ b t, s = b :: t ∧ 10 ≤ digitValue b ∧ digitValue b < 36 := by
  have hhead := names_head entry hentry
  obtain ⟨rest, hrest⟩ := (startsWith_iff hentry).1 h
  cases hname : entry.1 with
  | nil =>
    rw [hname] at hhead
    cases hhead
  | cons c name =>
    rw [hname] at hhead hrest
    cases s with
    | nil => cases hrest
    | cons b t =>
      have hb : c = tolower b := (cons.inj hrest).1
      refine ⟨b, t, rfl, digitValue_letter b ?_⟩
      rw [← hb]
      exact of_decide_eq_true hhead

theorem not_spells_of_letter {b : UInt8} {t : CStr} (hbase : base ≤ 10) (hb : 10 ≤ digitValue b) : ¬Spells base (b :: t) n := by
  rintro ⟨-, hdigits, -⟩
  rcases Nat.eq_zero_or_pos base with rfl | hpos
  · have hzero : (b :: t).head? ≠ some 48 := by
      intro hhead
      rw [some.inj hhead] at hb
      exact absurd hb (by decide)
    rw [radix_decimal hzero] at hdigits
    exact absurd (hdigits b mem_cons_self) (by dsimp only; omega)
  · rw [radix_of_ne hpos.ne'] at hdigits
    exact absurd (hdigits b mem_cons_self) (by dsimp only; omega)

theorem not_enters_of_startsWith (hentry : entry ∈ codePoints) (h : startsWith entry.1 s)
    (hbase : base ≤ 10) (v : ℤ) : ¬Enters base s v := by
  obtain ⟨b, t, rfl, hletter, hdigit⟩ := letter_of_startsWith hentry h
  intro henters
  have hplain : Plain (b :: t) := fun c hc => by
    rw [← some.inj hc]
    exact digitValue_plain hdigit
  obtain ⟨n, hspells, -⟩ := spells_of_enters hplain henters
  exact not_spells_of_letter hbase hletter hspells

theorem codePoint_lt {v : ℕ} (h : CodePoint s v) : v < 64 := by
  cases h with
  | name hentry _ => exact codePoints_lt _ hentry
  | numeral _ hn => exact hn

/-- Accepted if and only if there is a code point for it, and then with one. -/
def Right (s : CStr) : Prop :=
  ((parseDscpValue s).1 = 0 ↔ ∃ v, CodePoint s v) ∧ ((parseDscpValue s).1 = 0 →
      CodePoint s (parseDscpValue s).2.toNat ∧ (parseDscpValue s).2.toNat < 64)

/-- Every numeral that `strtol` sees and that counts as a code point is one. -/
def Counted (s : CStr) : Prop :=
  ∀ base v, base = 2 ∨ base = 0 → Enters base s v → -2 ^ 63 ≤ v → v < 2 ^ 63 → v.bmod (2 ^ 32) < 64 → Plain s ∧ 0 ≤ v ∧ v < 64

theorem right_iff_of_accepted {v : UInt8} (h : parseDscpValue s = (0, v)) : Right s ↔ CodePoint s v.toNat := by
  rw [Right, h]
  constructor
  · exact fun hright => (hright.2 rfl).1
  · exact fun hpoint => ⟨⟨fun _ => ⟨_, hpoint⟩, fun _ => rfl⟩, fun _ => ⟨hpoint, codePoint_lt hpoint⟩⟩

theorem right_iff_of_refused (h : parseDscpValue s = (-1, 0)) : Right s ↔ ¬∃ v, CodePoint s v := by
  have hne : (-1 : ℤ) ≠ 0 := by decide
  rw [Right, h]
  constructor
  · exact fun hright hpoint => hne (hright.1.2 hpoint)
  · exact fun hnone => ⟨⟨fun hzero => absurd hzero hne, fun hpoint => absurd hpoint hnone⟩, fun hzero => absurd hzero hne⟩

theorem right_of_name (hentry : entry ∈ codePoints) (hstarts : startsWith entry.1 s) (h : parseDscpValue s = (0, entry.2)) :
    Right s ↔ s ≠ [] ∧ (∀ entry ∈ codePoints, startsWith entry.1 s → s.map tolower = entry.1) ∧
      Counted s := by
  rw [right_iff_of_accepted h]
  constructor
  · intro hpoint
    obtain ⟨b, t, rfl, hletter, -⟩ := letter_of_startsWith hentry hstarts
    refine ⟨cons_ne_nil b t, ?_, ?_⟩
    · intro other hother hothers
      generalize entry.2.toNat = v at hpoint
      cases hpoint with
      | name hnamed hs =>
        have hprefix := (startsWith_iff hother).1 hothers
        rw [hs] at hprefix ⊢
        exact (names_apart other hother _ hnamed (List.isPrefixOf_iff_prefix.2 hprefix)).symm
      | numeral hnumeral _ =>
        obtain ⟨c, u, hcu, hc⟩ := numeral_head hnumeral
        rw [(cons.inj hcu).1] at hletter
        omega
    · intro base v hbase henters
      exact absurd henters (not_enters_of_startsWith hentry hstarts (by omega) v)
  · rintro ⟨-, hexact, -⟩
    exact .name hentry (hexact entry hentry hstarts)

theorem bmod_of_small {v : ℤ} (hlo : 0 ≤ v) (hhi : v < 2 ^ 31) : v.bmod (2 ^ 32) = v :=
  Int.bmod_eq_of_le (by norm_num; omega) (by norm_num; omega)

theorem counted_of_numeral (h : Numeral s n) (hn : n < 64) : Counted s := by
  intro base v hbase henters _ _ hlt
  have hplain := numeral_plain h
  obtain ⟨m, hspells, rfl⟩ := spells_of_enters hplain henters
  suffices hm : m < 64 by exact ⟨hplain, by omega, by omega⟩
  rcases hbase with rfl | rfl
  · rcases spells_of_numeral h with htwo | hzero
    · rwa [spells_unique hspells htwo]
    · exact (spells_both hspells hzero).1.trans_lt hn
  · rcases spells_of_numeral h with htwo | hzero
    · -- at most 63 in base two: too short for the `int` to wrap
      have hbound : m ≤ 63 ^ 4 :=
        (spells_both htwo hspells).2.trans (Nat.pow_le_pow_left (by omega) 4)
      norm_num at hbound
      rw [bmod_of_small (by omega) (by omega)] at hlt
      omega
    · rwa [spells_unique hspells hzero]

theorem enters_of_numeral (h : Numeral s n) : Enters 2 s n ∨ Enters 0 s n :=
  (spells_of_numeral h).imp (enters_of_spells (numeral_plain h)) (enters_of_spells (numeral_plain h))

theorem numeral_of_enters (hbase : base = 2 ∨ base = 0) (hplain : Plain s) (h : Enters base s n) :
    Numeral s n := by
  obtain ⟨m, hspells, hm⟩ := spells_of_enters hplain h
  obtain rfl := Int.ofNat.inj hm
  rcases hbase with rfl | rfl
  · obtain ⟨hne, hdigits, rfl⟩ := spells_two_iff.1 hspells
    exact .binary hne hdigits
  · exact numeral_of_spells hspells

theorem convert_of_numeral (h : Numeral s n) (hn : n < 64) : (convert 2 s).isSome ∨ (convert 0 s).isSome := by
  have hsmall : (n : ℤ).bmod (2 ^ 32) < 64 := by
    rw [bmod_of_small (by omega) (by omega)]
    omega
  have hsome : ∀ base, Enters base s n → (convert base s).isSome := fun base henters =>
    isSome_iff_exists.2 ⟨_, convert_eq_some_iff.2 (.inr ⟨n, henters, by omega, by omega, hsmall, rfl⟩)⟩
  exact (enters_of_numeral h).imp (hsome 2) (hsome 0)

theorem codePoint_of_no_name {v : ℕ} (hnone : ∀ entry ∈ codePoints, ¬startsWith entry.1 s) (h : CodePoint s v) : Numeral s v := by
  cases h with
  | name hentry hs =>
    refine absurd ((startsWith_iff hentry).2 ?_) (hnone _ hentry)
    rw [hs]
  | numeral h _ => exact h

theorem right_of_convert {c : ℤ} (hbase : base = 2 ∨ base = 0) (hnone : ∀ entry ∈ codePoints, ¬startsWith entry.1 s) (hs : s ≠ [])
    (h : convert base s = some c) : CodePoint s (UInt8.ofInt c).toNat ↔ Counted s := by
  constructor
  · exact fun hpoint => counted_of_numeral (codePoint_of_no_name hnone hpoint) (codePoint_lt hpoint)
  · intro hcounted
    obtain ⟨v, henters, hlo, hhi, hlt, rfl⟩ :=
      (convert_eq_some_iff.1 h).resolve_left fun hnil => hs hnil.1
    obtain ⟨hplain, hpos, hsmall⟩ := hcounted base v hbase henters hlo hhi hlt
    lift v to ℕ using hpos
    have hbyte : (UInt8.ofInt ((v : ℤ).bmod (2 ^ 32))).toNat = v := by
      rw [bmod_of_small (by omega) (by omega)]
      simp [UInt8.ofInt]
      omega
    rw [hbyte]
    exact .numeral (numeral_of_enters hbase hplain henters) (by omega)

theorem right_of_no_convert (hnone : ∀ entry ∈ codePoints, ¬startsWith entry.1 s)
    (htwo : convert 2 s = none) (hzero : convert 0 s = none) :
    (¬∃ v, CodePoint s v) ∧ Counted s := by
  constructor
  · rintro ⟨v, hpoint⟩
    rcases convert_of_numeral (codePoint_of_no_name hnone hpoint) (codePoint_lt hpoint) with h | h
    · rw [htwo] at h
      cases h
    · rw [hzero] at h
      cases h
  · intro base v hbase henters hlo hhi hlt
    have hsome : convert base s = some (v.bmod (2 ^ 32)) :=
      convert_eq_some_iff.2 (.inr ⟨v, henters, hlo, hhi, hlt, rfl⟩)
    rcases hbase with rfl | rfl
    · cases htwo.symm.trans hsome
    · cases hzero.symm.trans hsome

theorem parseDscpValue_of_no_name (hnone : ∀ entry ∈ codePoints, ¬startsWith entry.1 s) :
    parseDscpValue s = match (convert 2 s).orElse fun _ => convert 0 s with
      | some converted => (0, UInt8.ofInt converted)
      | none => (-1, 0) := by
  have hfind : (codePoints.find? fun entry => startsWith entry.1 s) = none := by
    rw [find?_eq_none]
    exact fun entry hentry => by simpa using hnone entry hentry
  rw [parseDscpValue, hfind]

/-- Exactly for texts that are not empty, have nothing behind a name and no numeral with a blank
or a sign or that wraps into the range. -/
theorem parseDscpValue_right_iff (s : CStr) :
    Right s ↔ s ≠ [] ∧ (∀ entry ∈ codePoints, startsWith entry.1 s → s.map tolower = entry.1) ∧
      Counted s := by
  cases hfind : codePoints.find? fun entry => startsWith entry.1 s with
  | some entry =>
    have hstarts : startsWith entry.1 s := by simpa using find?_some hfind
    refine right_of_name (mem_of_find?_eq_some hfind) hstarts ?_
    rw [parseDscpValue, hfind]
  | none =>
    have hnone : ∀ entry ∈ codePoints, ¬startsWith entry.1 s := fun entry hentry => by
      simpa using find?_eq_none.1 hfind entry hentry
    have hparse := parseDscpValue_of_no_name hnone
    have hnames : ∀ entry ∈ codePoints, startsWith entry.1 s → s.map tolower = entry.1 :=
      fun entry hentry hstarts => absurd hstarts (hnone entry hentry)
    by_cases hs : s = []
    · subst hs
      have hzero : convert 2 [] = some 0 := convert_eq_some_iff.2 (.inl ⟨rfl, rfl⟩)
      rw [hzero] at hparse
      rw [right_iff_of_accepted hparse]
      constructor
      · intro hpoint
        obtain ⟨b, t, hnil, -⟩ := numeral_head (codePoint_of_no_name hnone hpoint)
        cases hnil
      · exact fun h => absurd rfl h.1
    · cases htwo : convert 2 s with
      | some c =>
        rw [htwo] at hparse
        rw [right_iff_of_accepted hparse, right_of_convert (.inl rfl) hnone hs htwo]
        exact ⟨fun h => ⟨hs, hnames, h⟩, fun h => h.2.2⟩
      | none =>
        cases hzero : convert 0 s with
        | some c =>
          rw [htwo, hzero] at hparse
          rw [right_iff_of_accepted hparse, right_of_convert (.inr rfl) hnone hs hzero]
          exact ⟨fun h => ⟨hs, hnames, h⟩, fun h => h.2.2⟩
        | none =>
          rw [htwo, hzero] at hparse
          obtain ⟨hpoint, hcounted⟩ := right_of_no_convert hnone htwo hzero
          rw [right_iff_of_refused hparse]
          exact iff_of_true hpoint ⟨hs, hnames, hcounted⟩

theorem values_misread : parseDscpValue (cstr "cs1x") = (0, 8) ∧ parseDscpValue [] = (0, 0) ∧
      parseDscpValue (cstr " 9") = (0, 9) ∧ parseDscpValue (cstr "-1") = (0, 255) ∧
      parseDscpValue (cstr "4294967296") = (0, 0) ∧ ¬Right (cstr "-1") := by
  refine ⟨by decide, by decide, by decide, by decide, by decide, fun hright => ?_⟩
  have hfits : (255 : UInt8).toNat < 64 := (hright.2 (by decide)).2
  exact absurd hfits (by decide)

end Amplet.DscpValues
