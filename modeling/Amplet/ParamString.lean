import Amplet.Bytes

/-!
# Argument strings

Embedding of `parse_param_string` in `src/measured/schedule.c`. `token` holds the bytes
written below `offset` and `result` the words stored below `count`. A backslash needs a
following character, which is stored without being looked at.
-/

namespace Amplet.ParamString
open List Bytes

inductive ParseState
  | whitespace
  | dquote
  | squote
  | character
deriving DecidableEq, Repr

structure Tokeniser where
  state : ParseState
  token : CStr
  result : List CStr

def isBlank (c : UInt8) : Bool := c = 32 || c = 9 || c = 10

def Tokeniser.store (m : Tokeniser) (c : UInt8) (state : ParseState) : Tokeniser :=
  { m with token := m.token ++ [c], state := state }

def Tokeniser.saveToken (m : Tokeniser) : Tokeniser :=
  { m with result := m.result ++ [m.token], token := [] }

def Tokeniser.escaped (m : Tokeniser) (c : UInt8) : Tokeniser :=
  m.store c (if m.state = .whitespace then .character else m.state)

def Tokeniser.next (m : Tokeniser) (c : UInt8) : Tokeniser :=
  match m.state with
  | .whitespace =>
    if isBlank c then m
    else if c = doubleQuote then { m with state := .dquote }
    else if c = singleQuote then { m with state := .squote }
    else m.store c .character
  | .dquote => if c = doubleQuote then { m with state := .character } else m.store c .dquote
  | .squote => if c = singleQuote then { m with state := .character } else m.store c .squote
  | .character =>
    if c = doubleQuote then { m with state := .dquote }
    else if c = singleQuote then { m with state := .squote }
    else if isBlank c then { m.saveToken with state := .whitespace }
    else m.store c .character

/-- A lone backslash at the end is an error. -/
def scan : Tokeniser → CStr → Option Tokeniser
  | m, [] => some m
  | m, c :: rest =>
    if c = backslash then
      match rest with
      | [] => none
      | c' :: rest => scan (m.escaped c') rest
    else scan (m.next c) rest

def parseParamString : Option CStr → Option (List CStr)
  | none => some []
  | some [] => some []
  | some (c :: s) =>
    match scan ⟨.whitespace, [], []⟩ (c :: s) with
    | none => none
    | some m =>
      if m.state = .dquote ∨ m.state = .squote then none else some m.saveToken.result

theorem scan_cons {c : UInt8} (hc : c ≠ backslash) (m : Tokeniser) (rest : CStr) : scan m (c :: rest) = scan (m.next c) rest := by
  cases rest <;> simp [scan, hc]

def Plain (c : UInt8) : Prop :=
  c ≠ backslash ∧ c ≠ doubleQuote ∧ c ≠ singleQuote ∧ isBlank c = false

instance (c : UInt8) : Decidable (Plain c) := inferInstanceAs (Decidable (_ ∧ _))

theorem next_plain {m : Tokeniser} (hm : m.state = .whitespace ∨ m.state = .character) {c : UInt8}
    (hc : Plain c) : m.next c = m.store c .character := by
  obtain ⟨-, hd, hs, hb⟩ := hc
  rcases hm with hm | hm <;> simp [Tokeniser.next, hm, hd, hs, hb]

theorem scan_plain (w : CStr) (hw : ∀ c ∈ w, Plain c) (rest token : CStr) (result : List CStr) :
    scan ⟨.character, token, result⟩ (w ++ rest) = scan ⟨.character, token ++ w, result⟩ rest := by
  induction w generalizing token with
  | nil => simp
  | cons c w ih =>
    have hc := hw c (mem_cons_self ..)
    rw [cons_append, scan_cons hc.1, next_plain (Or.inr rfl) hc, Tokeniser.store, ih]
    · simp
    · exact fun c' hc' => hw c' (mem_cons_of_mem _ hc')

theorem scan_word {w : CStr} (hne : w ≠ []) (hw : ∀ c ∈ w, Plain c) (rest : CStr) (result : List CStr) :
    scan ⟨.whitespace, [], result⟩ (w ++ rest) = scan ⟨.character, w, result⟩ rest := by
  cases w with
  | nil => exact absurd rfl hne
  | cons c w =>
    have hc := hw c (mem_cons_self ..)
    rw [cons_append, scan_cons hc.1, next_plain (Or.inl rfl) hc, Tokeniser.store,
      scan_plain w fun c' hc' => hw c' (mem_cons_of_mem _ hc')]
    simp

def joinWords : List CStr → CStr
  | [] => []
  | [w] => w
  | w :: ws => w ++ 32 :: joinWords ws

theorem scan_joinWords {w : CStr} {ws : List CStr} (h : ∀ v ∈ w :: ws, v ≠ [] ∧ ∀ c ∈ v, Plain c) (result : List CStr) :
    ∃ init last, w :: ws = init ++ [last] ∧ scan ⟨.whitespace, [], result⟩ (joinWords (w :: ws)) =
        some ⟨.character, last, result ++ init⟩ := by
  induction ws generalizing w result with
  | nil =>
    have hw := h w (mem_cons_self ..)
    have hscan := scan_word hw.1 hw.2 [] result
    refine ⟨[], w, rfl, ?_⟩
    simpa [joinWords, scan] using hscan
  | cons v ws ih =>
    have hw := h w (mem_cons_self ..)
    obtain ⟨init, last, hsplit, hscan⟩ :=
      ih (fun u hu => h u (mem_cons_of_mem _ hu)) (result ++ [w])
    refine ⟨w :: init, last, by rw [hsplit, cons_append], ?_⟩
    rw [joinWords, scan_word hw.1 hw.2, scan_cons (by decide)]
    · simpa [Tokeniser.next, Tokeniser.saveToken, isBlank, doubleQuote, singleQuote] using hscan
    · simp

theorem parseParamString_joinWords {ws : List CStr} (hws : ws ≠ []) (h : ∀ w ∈ ws, w ≠ [] ∧ ∀ c ∈ w, Plain c) :
    parseParamString (some (joinWords ws)) = some ws := by
  cases ws with
  | nil => exact absurd rfl hws
  | cons w ws =>
    obtain ⟨init, last, hsplit, hscan⟩ := scan_joinWords h []
    obtain ⟨c, s, hs⟩ : ∃ c s, joinWords (w :: ws) = c :: s := by
      obtain ⟨c, t, rfl⟩ := exists_cons_of_ne_nil (h w (mem_cons_self ..)).1
      cases ws <;> exact ⟨c, _, rfl⟩
    rw [hs] at hscan ⊢
    simp [parseParamString, hscan, Tokeniser.saveToken, hsplit]

example : parseParamString (some (cstr "-c \"a b\"  d\\ e")) = some [cstr "-c", cstr "a b", cstr "d e"] := by decide +kernel

end Amplet.ParamString
