import Amplet.ParamString
import Amplet.QuotedWords

/-!
# The words of an argument string

What the tokeniser of `parse_param_string` has stored at any point of its loop,
in terms of the items it has read since the last separator.
-/

namespace Amplet.ParamString
open List Bytes QuotedWords

def marks : Marks UInt8 where
  escape := backslash
  isQuote c := c = doubleQuote || c = singleQuote
  isBlank := isBlank

def stateOf (run : List (Item UInt8)) : Option UInt8 → ParseState
  | some q => if q = doubleQuote then .dquote else .squote
  | none => if run = [] then .whitespace else .character

def tokeniserAt (q : Option UInt8) (run : List (Item UInt8)) (done : List CStr) : Tokeniser :=
  ⟨stateOf run q, literals run, done⟩

def Tokeniser.trace : Tokeniser → CStr → List Tokeniser
  | m, [] => [m]
  | m, c :: rest =>
    m :: if c = backslash then
      match rest with
      | [] => []
      | c' :: rest => (m.escaped c').trace rest
    else (m.next c).trace rest

variable {q : Option UInt8} {run : List (Item UInt8)} {c : UInt8}

theorem isBlank_doubleQuote : isBlank doubleQuote = false := rfl

theorem isBlank_singleQuote : isBlank singleQuote = false := rfl

theorem singleQuote_ne_doubleQuote : singleQuote ≠ doubleQuote := by decide

theorem stateOf_none (run : List (Item UInt8)) :
    stateOf run none = .whitespace ∧ run = [] ∨ stateOf run none = .character ∧ run ≠ [] := by
  rw [stateOf]
  split_ifs with hrun
  · exact Or.inl ⟨rfl, hrun⟩
  · exact Or.inr ⟨rfl, hrun⟩

@[simp] theorem stateOf_doubleQuote (run : List (Item UInt8)) : stateOf run (some doubleQuote) = .dquote := rfl

@[simp] theorem stateOf_singleQuote (run : List (Item UInt8)) : stateOf run (some singleQuote) = .squote := rfl

@[simp] theorem stateOf_concat (run : List (Item UInt8)) (i : Item UInt8) : stateOf (run ++ [i]) none = .character :=
  if_neg (by simp)

theorem tokeniserAt_escaped (q : Option UInt8) (run : List (Item UInt8)) (done : List CStr)
    (c : UInt8) : (tokeniserAt q run done).escaped c = tokeniserAt q (run ++ [.literal c]) done := by
  have hstate : (if stateOf run q = .whitespace then .character else stateOf run q) = stateOf (run ++ [.literal c]) q := by
    cases q with
    | none => rcases stateOf_none run with ⟨h, -⟩ | ⟨h, -⟩ <;> simp [h]
    | some q => by_cases hd : q = doubleQuote <;> simp [stateOf, hd]
  rw [Tokeniser.escaped, Tokeniser.store, tokeniserAt, hstate, tokeniserAt, literals_concat]
  rfl

theorem tokeniserAt_next (hq : ∀ c ∈ q, marks.isQuote c = true) (run : List (Item UInt8))
    (done : List CStr) (hc : (marks.role q c).1 ≠ .separator) : (tokeniserAt q run done).next c =
      tokeniserAt (marks.role q c).2 (run ++ [(marks.role q c).1]) done := by
  cases q with
  | none =>
    have hstate := (stateOf_none run).imp And.left And.left
    by_cases hquote : marks.isQuote c = true
    · have hrole : marks.role none c = (.mark, some c) := if_pos hquote
      have hcases : c = doubleQuote ∨ c = singleQuote := by simpa [marks] using hquote
      rw [hrole, tokeniserAt, tokeniserAt, literals_concat]
      rcases hcases with rfl | rfl <;> rcases hstate with h | h <;>
        simp [Tokeniser.next, h, Item.symbol, isBlank_doubleQuote, isBlank_singleQuote, singleQuote_ne_doubleQuote]
    · have hplain : c ≠ doubleQuote ∧ c ≠ singleQuote := by simpa [marks] using hquote
      by_cases hblank : marks.isBlank c = true
      · exact absurd (by rw [Marks.role, if_neg hquote, if_pos hblank]) hc
      · have hrole : marks.role none c = (.literal c, none) := by
          rw [Marks.role, if_neg hquote, if_neg hblank]
        rw [hrole, tokeniserAt, tokeniserAt, literals_concat]
        rcases hstate with h | h <;>
          simp [Tokeniser.next, Tokeniser.store, h, hplain, show ¬ isBlank c = true from hblank, Item.symbol]
  | some q =>
    have hcases : q = doubleQuote ∨ q = singleQuote := by simpa [marks] using hq q rfl
    rw [Marks.role, tokeniserAt, tokeniserAt]
    split_ifs with hclose
    · rcases hcases with rfl | rfl <;> simp [Tokeniser.next, hclose, Item.symbol]
    · rcases hcases with rfl | rfl <;> simp [Tokeniser.next, Tokeniser.store, hclose, Item.symbol]

theorem role_separator (hc : (marks.role q c).1 = .separator) :
    q = none ∧ marks.isQuote c = false ∧ isBlank c = true ∧ (marks.role q c).2 = none := by
  cases q with
  | none =>
    rw [Marks.role] at hc ⊢
    split_ifs at hc ⊢ with hquote hblank
    exact ⟨rfl, by simpa using hquote, hblank, rfl⟩
  | some q =>
    rw [Marks.role] at hc
    split_ifs at hc

theorem tokeniserAt_separator (run : List (Item UInt8)) (done : List CStr) (hc : (marks.role q c).1 = .separator) :
    (tokeniserAt q run done).next c = tokeniserAt none [] (done ++ wordsOf [run]) := by
  obtain ⟨rfl, hquote, hblank, -⟩ := role_separator hc
  have hplain : c ≠ doubleQuote ∧ c ≠ singleQuote := by simpa [marks] using hquote
  rcases stateOf_none run with ⟨h, rfl⟩ | ⟨h, hrun⟩
  · simp [tokeniserAt, Tokeniser.next, h, hblank, wordsOf]
  · rw [wordsOf_singleton hrun]
    simp only [tokeniserAt, Tokeniser.next, Tokeniser.saveToken, h, hblank, hplain, if_true, if_false]
    rfl

theorem role_isQuote (hq : ∀ c ∈ q, marks.isQuote c = true) (c : UInt8) : ∀ c' ∈ (marks.role q c).2, marks.isQuote c' = true := by
  cases q with
  | none =>
    rw [Marks.role]
    split_ifs with hquote
    · simpa using hquote
    · simp
    · simp
  | some q =>
    rw [Marks.role]
    split_ifs
    · simp
    · exact hq

theorem separator_notMem_concat (hrun : .separator ∉ run) {i : Item UInt8} (hi : i ≠ .separator) : .separator ∉ run ++ [i] := by
  rw [mem_append, mem_singleton, not_or]
  exact ⟨hrun, hi.symm⟩

theorem scan_tokeniserAt (hq : ∀ c ∈ q, marks.isQuote c = true) (hrun : .separator ∉ run) (done : List CStr) (s : CStr) :
    scan (tokeniserAt q run done) s = (marks.read q s).2.openQuote.map fun q' =>
        tokeniserAt q' (lastRun (run ++ (marks.read q s).1)) (done ++ completed (run ++ (marks.read q s).1)) := by
  fun_induction Marks.read marks q s generalizing run done with
  | case1 | case2 =>
    rw [append_nil, lastRun_of_notMem hrun, completed_of_notMem hrun, append_nil]
    rfl
  | case3 q => rfl
  | case4 q c rest ih =>
    have hlit : Item.literal c ≠ .separator := by simp
    have hstep : scan (tokeniserAt q run done) (marks.escape :: c :: rest) =
        scan ((tokeniserAt q run done).escaped c) rest := if_pos rfl
    rw [hstep, tokeniserAt_escaped, ih hq (separator_notMem_concat hrun hlit), append_assoc]
    rfl
  | case5 q c rest hc ih =>
    rw [scan_cons hc]
    by_cases hsep : (marks.role q c).1 = .separator
    · rw [tokeniserAt_separator run done hsep, ← (role_separator hsep).2.2.2,
        ih (role_isQuote hq c) not_mem_nil, hsep, lastRun_append hrun, completed_append hrun,
        nil_append, append_assoc]
    · rw [tokeniserAt_next hq run done hsep, ih (role_isQuote hq c) (separator_notMem_concat hrun hsep), append_assoc]
      rfl

theorem Tokeniser.mem_trace (m : Tokeniser) (s : CStr) : m ∈ m.trace s := by
  cases s with
  | nil => exact mem_singleton_self m
  | cons c rest => cases rest <;> simp [trace]

theorem Tokeniser.trace_cons (m : Tokeniser) (hc : c ≠ backslash) (rest : CStr) :
    m.trace (c :: rest) = m :: (m.next c).trace rest := by
  cases rest <;> simp [trace, hc]

theorem Tokeniser.within_cons {m m' : Tokeniser} {s : CStr} {maxToken maxWords : ℕ}
    (htoken : m.token.length ≤ m'.token.length) (hresult : m.result.length ≤ m'.result.length) :
    (∀ x ∈ m :: m'.trace s, x.token.length ≤ maxToken ∧ x.result.length ≤ maxWords) ↔
      ∀ x ∈ m'.trace s, x.token.length ≤ maxToken ∧ x.result.length ≤ maxWords := by
  rw [forall_mem_cons]
  refine and_iff_right_of_imp fun h => ?_
  obtain ⟨h₁, h₂⟩ := h m' (m'.mem_trace s)
  exact ⟨htoken.trans h₁, hresult.trans h₂⟩

theorem token_le_concat (q q' : Option UInt8) (run : List (Item UInt8)) (done : List CStr) (i : Item UInt8) :
    (tokeniserAt q run done).token.length ≤ (tokeniserAt q' (run ++ [i]) done).token.length := by
  rw [tokeniserAt, tokeniserAt, literals_concat, length_append]
  exact Nat.le_add_right _ _

theorem trace_tokeniserAt (hq : ∀ c ∈ q, marks.isQuote c = true) (hrun : .separator ∉ run)
    (done : List CStr) (s : CStr) (maxToken maxWords : ℕ) :
    (∀ m ∈ (tokeniserAt q run done).trace s, m.token.length ≤ maxToken ∧ m.result.length ≤ maxWords) ↔
      (∀ g ∈ groups (run ++ (marks.read q s).1), (literals g).length ≤ maxToken) ∧
        (done ++ completed (run ++ (marks.read q s).1)).length ≤ maxWords := by
  fun_induction Marks.read marks q s generalizing run done with
  | case1 | case2 =>
    rw [append_nil, groups_of_notMem hrun, completed_of_notMem hrun]
    simp [Tokeniser.trace, tokeniserAt]
  | case3 q =>
    rw [append_nil, groups_of_notMem hrun, completed_of_notMem hrun]
    simp [Tokeniser.trace, tokeniserAt, marks]
  | case4 q c rest ih =>
    have hlit : Item.literal c ≠ .separator := by simp
    have hstep : (tokeniserAt q run done).trace (marks.escape :: c :: rest) =
        tokeniserAt q run done :: ((tokeniserAt q run done).escaped c).trace rest := rfl
    rw [hstep, tokeniserAt_escaped, Tokeniser.within_cons (token_le_concat ..) le_rfl,
      ih hq (separator_notMem_concat hrun hlit), append_assoc]
    rfl
  | case5 q c rest hc ih =>
    rw [Tokeniser.trace_cons _ hc]
    by_cases hsep : (marks.role q c).1 = .separator
    · rw [tokeniserAt_separator run done hsep, ← (role_separator hsep).2.2.2, forall_mem_cons,
        ih (role_isQuote hq c) not_mem_nil, hsep, groups_append hrun, completed_append hrun,
        nil_append, append_assoc, forall_mem_cons, and_assoc, and_assoc]
      refine and_congr_right fun _ => and_iff_right_of_imp fun h => ?_
      rw [length_append] at h
      exact (Nat.le_add_right _ _).trans h.2
    · rw [tokeniserAt_next hq run done hsep, Tokeniser.within_cons (token_le_concat ..) le_rfl,
        ih (role_isQuote hq c) (separator_notMem_concat hrun hsep), append_assoc]
      rfl

theorem openQuote_none (c : UInt8) (hc : c ∈ (none : Option UInt8)) : marks.isQuote c = true := by
  cases hc

theorem scan_start (s : CStr) : scan ⟨.whitespace, [], []⟩ s = (marks.ending s).openQuote.map fun q =>
      tokeniserAt q (lastRun (marks.items s)) (completed (marks.items s)) :=
  scan_tokeniserAt openQuote_none not_mem_nil [] s

theorem trace_start (s : CStr) (maxToken maxWords : ℕ) : (∀ m ∈ Tokeniser.trace ⟨.whitespace, [], []⟩ s,
        m.token.length ≤ maxToken ∧ m.result.length ≤ maxWords) ↔
      (∀ g ∈ groups (marks.items s), (literals g).length ≤ maxToken) ∧ (completed (marks.items s)).length ≤ maxWords :=
  trace_tokeniserAt openQuote_none not_mem_nil [] s maxToken maxWords

theorem items_plain {w : CStr} (hw : ∀ c ∈ w, Plain c) : marks.items w = w.map .literal := by
  rw [Marks.items]
  induction w with
  | nil => rfl
  | cons c w ih =>
    obtain ⟨hescape, hd, hs, hblank⟩ := hw c (mem_cons_self ..)
    have hrole : marks.role none c = (.literal c, none) := by
      simp [Marks.role, marks, hd, hs, hblank]
    rw [marks.read_cons none hescape, hrole, ih fun c' hc' => hw c' (mem_cons_of_mem _ hc')]
    rfl

theorem tokeniserAt_quote (q : Option UInt8) (run : List (Item UInt8)) (done : List CStr) :
    ((tokeniserAt q run done).state = .dquote ∨ (tokeniserAt q run done).state = .squote) ↔ q ≠ none := by
  rw [tokeniserAt]
  cases q with
  | none => rcases stateOf_none run with ⟨h, -⟩ | ⟨h, -⟩ <;> simp [h]
  | some q => by_cases hd : q = doubleQuote <;> simp [stateOf, hd]

end Amplet.ParamString
