import Amplet.Bytes

/-!
# Reading a command line as a POSIX shell does

Token recognition and quote removal for a line that is one simple command. A line that
has another structure, or a word that the shell would expand or take as a reserved word
or an assignment, has no reading. `ended` says that a newline came after the command. A
backslash at the end of the line stands for itself, as shells take it.
-/

namespace Amplet.ShellWords
open List Option Bytes

def hash : UInt8 := 35
def tilde : UInt8 := 126
def equals : UInt8 := 61

def isBlank (c : UInt8) : Bool := c = space || c = 9

/-- `&`, `(`, `)`, `;`, `<`, `>` and `|` -/
def isOperator (c : UInt8) : Bool := c ∈ [38, 40, 41, 59, 60, 62, 124]

/-- `$`, `*`, `?` and the backquote -/
def isExpansion (c : UInt8) : Bool := c ∈ [36, 42, 63, 96]

def isOrdinary (c : UInt8) : Bool :=
  !(isBlank c || c = newline || c = backslash || c = doubleQuote || c = singleQuote || isOperator c || isExpansion c)

/-- Where a word is with respect to a bracket expression. -/
inductive Bracket
  | outside
  | opened
  | negated
  | inside
deriving DecidableEq, Repr

/-- There is no next place behind a `]` that ends the expression. The first byte does not end
it, and with a slash in it `[` is a letter like others. -/
def Bracket.next (bracket : Bracket) (c : UInt8) : Option Bracket :=
  if c = slash then some .outside
  else
    match bracket with
    | .outside => some (if c = 91 then .opened else .outside)
    | .opened => some (if c = 33 then .negated else .inside)
    | .negated => some .inside
    | .inside => if c = 93 then none else some .inside

def Bracket.quoted : Bracket → Bracket
  | .outside => .outside
  | _ => .inside

inductive Mode
  | blank
  | blankEscape
  | word
  | wordEscape
  | single
  | double
  | doubleEscape
  | comment
deriving DecidableEq, Repr

structure Reader where
  mode : Mode
  word : CStr
  words : List CStr
  ended : Bool
  bracket : Bracket
deriving DecidableEq, Repr

def start : Reader := ⟨.blank, [], [], false, .outside⟩

def Reader.begins (r : Reader) (mode : Mode) (word : CStr) : Option Reader :=
  if r.ended then none else some { r with mode := mode, word := word, bracket := .outside }

def Reader.append (r : Reader) (mode : Mode) (bytes : CStr) : Reader :=
  { r with mode := mode, word := r.word ++ bytes, bracket := r.bracket.quoted }

/-- A byte that is not quoted. -/
def Reader.literal (r : Reader) (c : UInt8) : Option Reader :=
  (r.bracket.next c).map fun bracket => { r with mode := .word, word := r.word ++ [c], bracket := bracket }

def Reader.push (r : Reader) : Reader :=
  { r with mode := .blank, word := [], words := r.words ++ [r.word], bracket := .outside }

def Reader.endLine (r : Reader) : Reader :=
  { r with mode := .blank, ended := r.ended || !r.words.isEmpty }

def Reader.step (r : Reader) (c : UInt8) : Option Reader :=
  match r.mode with
  | .blank =>
    if isBlank c then some r
    else if c = newline then some r.endLine
    else if c = hash then some { r with mode := .comment }
    else if c = backslash then some { r with mode := .blankEscape }
    else if c = doubleQuote then r.begins .double []
    else if c = singleQuote then r.begins .single []
    else if isOperator c || isExpansion c || c = tilde then none
    else (r.begins .word []).bind (Reader.literal · c)
  | .blankEscape => if c = newline then some { r with mode := .blank } else r.begins .word [c]
  | .word =>
    if isBlank c then some r.push
    else if c = newline then some r.push.endLine
    else if c = backslash then some { r with mode := .wordEscape }
    else if c = doubleQuote then some { r with mode := .double }
    else if c = singleQuote then some { r with mode := .single }
    else if isOperator c || isExpansion c then none
    else r.literal c
  | .wordEscape =>
    if c = newline then some { r with mode := .word } else some (r.append .word [c])
  | .single =>
    if c = singleQuote then some { r with mode := .word } else some (r.append .single [c])
  | .double =>
    if c = doubleQuote then some { r with mode := .word }
    else if c = backslash then some { r with mode := .doubleEscape }
    else if c = 36 || c = 96 then none
    else some (r.append .double [c])
  | .doubleEscape =>
    if c = newline then some { r with mode := .double }
    else if c = 36 || c = 96 || c = doubleQuote || c = backslash then
      some (r.append .double [c])
    else some (r.append .double [backslash, c])
  | .comment => if c = newline then some r.endLine else some r

def Reader.finish (r : Reader) : Option (List CStr) :=
  match r.mode with
  | .blank | .comment => some r.words
  | .word => some (r.words ++ [r.word])
  | .wordEscape => some (r.words ++ [r.word ++ [backslash]])
  | .blankEscape => if r.ended then none else some (r.words ++ [[backslash]])
  | .single | .double | .doubleEscape => none

def reserved : List CStr :=
  ["!", "\x7b", "\x7d", "case", "do", "done", "elif", "else", "esac", "fi", "for", "if", "in", "then", "until", "while"].map cstr

def simpleCommand (line : CStr) : Option (List CStr) :=
  match (line.foldlM Reader.step start).bind Reader.finish with
  | some (program :: args) =>
    if equals ∈ program ∨ program ∈ reserved then none else some (program :: args)
  | _ => none

structure PlainWord (w : CStr) : Prop where
  ne_nil : w ≠ []
  ordinary : ∀ c ∈ w, isOrdinary c = true
  head : w.head? ≠ some hash ∧ w.head? ≠ some tilde
  brackets : w.foldlM Bracket.next .outside ≠ none

/-- A plain word; at the end of a line it may have a backslash behind it. -/
def PlainEnd (w : CStr) : Prop := PlainWord w ∨ ∃ front, w = front ++ [backslash] ∧ (front = [] ∨ PlainWord front)

def ignorable : Mode → CStr → Bool
  | .blank, [] | .comment, [] => true
  | .blank, c :: s =>
    if isBlank c || c = newline then ignorable .blank s
    else if c = hash then ignorable .comment s
    else if c = backslash then ignorable .blankEscape s
    else false
  | .blankEscape, c :: s => if c = newline then ignorable .blank s else false
  | .comment, c :: s => ignorable (if c = newline then .blank else .comment) s
  | _, _ => false

theorem ordinary_iff (c : UInt8) : isOrdinary c = true ↔ isBlank c = false ∧ c ≠ newline ∧ c ≠ backslash ∧ c ≠ doubleQuote ∧
      c ≠ singleQuote ∧ isOperator c = false ∧ isExpansion c = false := by
  simp [isOrdinary, and_assoc]

variable {c : UInt8} {program : CStr}

theorem read_ordinary (s : CStr) (hs : ∀ c ∈ s, isOrdinary c = true) (w : CStr) (ws : List CStr) (ended : Bool)
    {bracket last : Bracket} (hlast : s.foldlM Bracket.next bracket = some last) :
    s.foldlM Reader.step ⟨.word, w, ws, ended, bracket⟩ = some ⟨.word, w ++ s, ws, ended, last⟩ := by
  induction s generalizing w bracket with
  | nil =>
    cases hlast
    simp
  | cons c s ih =>
    rw [foldlM_cons] at hlast
    obtain ⟨next, hnext, hrest⟩ := bind_eq_some_iff.mp hlast
    obtain ⟨hb, hn, hs', hd, hq, ho, he⟩ := (ordinary_iff c).mp (hs c (mem_cons_self ..))
    have hstep : Reader.step ⟨.word, w, ws, ended, bracket⟩ c = some ⟨.word, w ++ [c], ws, ended, next⟩ := by
      simp [Reader.step, Reader.literal, hb, hn, hs', hd, hq, ho, he, hnext]
    rw [foldlM_cons, hstep]
    simpa using ih (fun c' hc' => hs c' (mem_cons_of_mem _ hc')) (w ++ [c]) hrest

theorem read_plainWord {w : CStr} (hw : PlainWord w) (ws : List CStr) :
    ∃ bracket, w.foldlM Reader.step ⟨.blank, [], ws, false, .outside⟩ = some ⟨.word, w, ws, false, bracket⟩ := by
  cases w with
  | nil => exact absurd rfl hw.ne_nil
  | cons c s =>
    obtain ⟨last, hlast⟩ := ne_none_iff_exists'.mp hw.brackets
    rw [foldlM_cons] at hlast
    obtain ⟨next, hnext, hrest⟩ := bind_eq_some_iff.mp hlast
    obtain ⟨hb, hn, hs, hd, hq, ho, he⟩ := (ordinary_iff c).mp (hw.ordinary c (by simp))
    have hhash : c ≠ hash := fun h => hw.head.1 (by simp [h])
    have htilde : c ≠ tilde := fun h => hw.head.2 (by simp [h])
    have hstep : Reader.step ⟨.blank, [], ws, false, .outside⟩ c = some ⟨.word, [c], ws, false, next⟩ := by
      simp [Reader.step, Reader.begins, Reader.literal, hb, hn, hs, hd, hq, ho, he, hhash, htilde, hnext]
    rw [foldlM_cons, hstep]
    exact ⟨last, read_ordinary s (fun c' hc' => hw.ordinary c' (mem_cons_of_mem _ hc')) [c] ws false hrest⟩

def Mode.between : Mode → Bool
  | .blank | .blankEscape | .comment => true
  | _ => false

variable {r r' : Reader}

theorem begins_eq {mode : Mode} {w : CStr} (h : r.begins mode w = some r') :
    r.ended = false ∧ r' = { r with mode := mode, word := w, bracket := .outside } := by
  rw [Reader.begins] at h
  split_ifs at h with hended
  exact ⟨by simpa using hended, (some.inj h).symm⟩

theorem literal_eq (h : r.literal c = some r') : ∃ bracket, r.bracket.next c = some bracket ∧
      r' = { r with mode := .word, word := r.word ++ [c], bracket := bracket } := by
  obtain ⟨bracket, hnext, rfl⟩ := map_eq_some_iff.mp h
  exact ⟨bracket, hnext, rfl⟩

theorem begins_literal_eq (h : (r.begins .word []).bind (Reader.literal · c) = some r') :
    ∃ bracket, Bracket.next .outside c = some bracket ∧ r' = { r with mode := .word, word := [c], bracket := bracket } := by
  obtain ⟨r₁, hbegins, hliteral⟩ := bind_eq_some_iff.mp h
  obtain ⟨-, rfl⟩ := begins_eq hbegins
  exact literal_eq hliteral

theorem step_between (hm : r.mode.between = true) (h : r.step c = some r') : (r'.mode.between = true ∧ r'.words = r.words ∧
        ∀ s, ignorable r.mode (c :: s) = ignorable r'.mode s) ∨
      (r'.mode.between = false ∧ ∀ s, ignorable r.mode (c :: s) = false) := by
  rw [Reader.step] at h
  cases hmode : r.mode <;> simp only [hmode, Mode.between, Bool.false_eq_true] at hm h
  case blank =>
    split_ifs at h with hb hn hh hs hd hq ho
    · cases h
      exact Or.inl ⟨by rw [hmode]; rfl, rfl, by simp [ignorable, hb, hmode]⟩
    · cases h
      exact Or.inl ⟨rfl, rfl, by simp [ignorable, hn, Reader.endLine]⟩
    · cases h
      exact Or.inl ⟨rfl, rfl, fun s => by simp only [ignorable, hh]; rfl⟩
    · cases h
      exact Or.inl ⟨rfl, rfl, fun s => by simp only [ignorable, hs]; rfl⟩
    · obtain ⟨-, rfl⟩ := begins_eq h
      exact Or.inr ⟨rfl, by simp [ignorable, hb, hn, hh, hs]⟩
    · obtain ⟨-, rfl⟩ := begins_eq h
      exact Or.inr ⟨rfl, by simp [ignorable, hb, hn, hh, hs]⟩
    · obtain ⟨bracket, -, rfl⟩ := begins_literal_eq h
      exact Or.inr ⟨rfl, by simp [ignorable, hb, hn, hh, hs]⟩
  case blankEscape =>
    split_ifs at h with hn
    · cases h
      exact Or.inl ⟨rfl, rfl, by simp [ignorable, hn]⟩
    · obtain ⟨-, rfl⟩ := begins_eq h
      exact Or.inr ⟨rfl, by simp [ignorable, hn]⟩
  case comment =>
    split_ifs at h with hn
    · cases h
      exact Or.inl ⟨rfl, rfl, by simp [ignorable, hn, Reader.endLine]⟩
    · cases h
      exact Or.inl ⟨by rw [hmode]; rfl, rfl, by simp [ignorable, hn, hmode]⟩

variable {s : CStr}

theorem step_of_ignorable (h : ignorable r.mode (c :: s) = true) : r.mode.between = true ∧ ∃ r', r.step c = some r' := by
  rw [Reader.step]
  cases hmode : r.mode <;> simp only [hmode, ignorable, Bool.false_eq_true] at h
  case blank =>
    refine ⟨rfl, ?_⟩
    split_ifs at h with hskip hh hs
    · by_cases hb : isBlank c = true
      · exact ⟨r, if_pos hb⟩
      · exact ⟨_, by rw [if_neg hb, if_pos (by simpa [hb] using hskip)]⟩
    all_goals simp only [Bool.or_eq_true, decide_eq_true_eq, not_or] at hskip
    · exact ⟨_, by rw [if_neg hskip.1, if_neg hskip.2, if_pos hh]⟩
    · exact ⟨_, by rw [if_neg hskip.1, if_neg hskip.2, if_neg hh, if_pos hs]⟩
  case blankEscape =>
    split_ifs at h with hn
    exact ⟨rfl, _, if_pos hn⟩
  case comment =>
    refine ⟨rfl, ?_⟩
    dsimp only
    split_ifs <;> exact ⟨_, rfl⟩

theorem read_ignorable (h : ignorable r.mode s = true) : ∃ r', s.foldlM Reader.step r = some r' ∧ r'.finish = some r.words := by
  induction s generalizing r with
  | nil =>
    refine ⟨r, rfl, ?_⟩
    cases hm : r.mode <;> simp_all [ignorable, Reader.finish]
  | cons c s ih =>
    obtain ⟨hm, r₁, hstep⟩ := step_of_ignorable h
    rw [foldlM_cons, hstep]
    rcases step_between hm hstep with ⟨-, hwords, hsame⟩ | ⟨-, hnot⟩
    · rw [← hwords]
      exact ih (by rw [← hsame]; exact h)
    · rw [hnot] at h
      cases h

def Reader.count (r : Reader) : ℕ := r.words.length + if r.mode.between then 0 else 1

def Mode.escape : Mode → Bool
  | .blankEscape | .wordEscape | .doubleEscape => true
  | _ => false

/-- Bytes stored so far; a backslash that was read last may still be stored. -/
def Reader.stored (r : Reader) : ℕ :=
  r.words.flatten.length + r.word.length + if r.mode.escape then 1 else 0

def Reader.Clean (r : Reader) : Prop := r.mode.between = true → r.word = []

theorem step_grows (hclean : r.Clean) (h : r.step c = some r') :
    r'.Clean ∧ r.words <+: r'.words ∧ r.count ≤ r'.count ∧ r'.stored ≤ r.stored + 1 := by
  rw [Reader.step] at h
  cases hmode : r.mode <;> simp only [hmode] at h <;> split_ifs at h
  all_goals first
    | obtain ⟨-, rfl⟩ := begins_eq h
      simp_all [Reader.Clean, Reader.count, Reader.stored, Mode.between, Mode.escape]
    | obtain ⟨bracket, -, rfl⟩ := begins_literal_eq h
      simp_all [Reader.Clean, Reader.count, Reader.stored, Mode.between, Mode.escape]
    | obtain ⟨bracket, -, rfl⟩ := literal_eq h
      simp_all [Reader.Clean, Reader.count, Reader.stored, Mode.between, Mode.escape]
      omega
    | obtain rfl := some.inj h
      simp_all [Reader.Clean, Reader.count, Reader.stored, Mode.between, Mode.escape, Reader.append,
        Reader.push, Reader.endLine] <;> omega

theorem read_grows (hclean : r.Clean) (h : s.foldlM Reader.step r = some r') :
    r'.Clean ∧ r.words <+: r'.words ∧ r.count ≤ r'.count ∧ r'.stored ≤ r.stored + s.length := by
  induction s generalizing r with
  | nil =>
    cases h
    exact ⟨hclean, prefix_rfl, le_rfl, le_rfl⟩
  | cons c s ih =>
    rw [foldlM_cons] at h
    obtain ⟨r₁, hstep, hread⟩ := bind_eq_some_iff.mp h
    obtain ⟨hclean₁, hwords, hcount, hstored⟩ := step_grows hclean hstep
    obtain ⟨hclean', hwords', hcount', hstored'⟩ := ih hclean₁ hread
    refine ⟨hclean', hwords.trans hwords', hcount.trans hcount', ?_⟩
    rw [length_cons]
    omega

theorem finish_spec {ws : List CStr} (hclean : r.Clean) (h : r.finish = some ws) :
    r.words <+: ws ∧ r.count ≤ ws.length ∧ ws.flatten.length = r.stored := by
  rw [Reader.finish] at h
  cases hmode : r.mode <;> simp only [hmode, some.injEq, reduceCtorEq] at h
  case blank | comment =>
    subst h
    have hword : r.word = [] := hclean (by rw [hmode]; rfl)
    simp [Reader.count, Reader.stored, hmode, hword, Mode.between, Mode.escape]
  case blankEscape =>
    split_ifs at h
    cases h
    have hword : r.word = [] := hclean (by rw [hmode]; rfl)
    simp [Reader.count, Reader.stored, hmode, hword, Mode.between, Mode.escape]
  all_goals
    subst h
    simp [Reader.count, Reader.stored, hmode, Mode.between, Mode.escape]
  omega

theorem ignorable_of_read {ws : List CStr} (hclean : r.Clean) (hm : r.mode.between = true)
    (h : s.foldlM Reader.step r = some r') (hfinish : r'.finish = some ws)
    (hlen : ws.length = r.words.length) :
    ignorable r.mode s = true := by
  induction s generalizing r with
  | nil =>
    obtain rfl := some.inj h
    cases hmode : r.mode <;> simp_all [Reader.finish, ignorable, Mode.between]
    obtain ⟨-, rfl⟩ := hfinish
    simp at hlen
  | cons c s ih =>
    rw [foldlM_cons] at h
    obtain ⟨r₁, hstep, hread⟩ := bind_eq_some_iff.mp h
    obtain ⟨hclean₁, hwords, -, -⟩ := step_grows hclean hstep
    rcases step_between hm hstep with ⟨hm₁, hsame, hign⟩ | ⟨hm₁, -⟩
    · rw [hign]
      exact ih hclean₁ hm₁ hread (by rw [hsame, hlen])
    · obtain ⟨hclean', -, hcount, -⟩ := read_grows hclean₁ hread
      have hws := (finish_spec hclean' hfinish).2.1
      have hle := hwords.length_le
      simp only [Reader.count, hm₁, Bool.false_eq_true, if_false] at hcount hws
      omega

section Full

/-- A backslash that is not the last byte loses itself. -/
theorem nil_of_escape (hclean : r.Clean) (hm : r.mode.escape = true) (hdouble : r.mode ≠ .doubleEscape)
    (h : s.foldlM Reader.step r = some r') (hfull : r'.stored = r.stored + s.length) : s = [] := by
  cases s with
  | nil => rfl
  | cons c s =>
    rw [foldlM_cons] at h
    obtain ⟨r₁, hstep, hread⟩ := bind_eq_some_iff.mp h
    obtain ⟨-, -, -, hle⟩ := read_grows (step_grows hclean hstep).1 hread
    have hsame : r₁.stored ≤ r.stored := by
      rw [Reader.step] at hstep
      cases hmode : r.mode <;> simp only [hmode, Mode.escape, Bool.false_eq_true] at hm hstep hdouble
      case blankEscape =>
        have hword : r.word = [] := hclean (by rw [hmode]; rfl)
        split_ifs at hstep
        · cases hstep
          simp [Reader.stored, hmode, Mode.escape]
        · obtain ⟨-, rfl⟩ := begins_eq hstep
          simp [Reader.stored, hmode, hword, Mode.escape]
      case wordEscape =>
        split_ifs at hstep
        · cases hstep
          simp [Reader.stored, hmode, Mode.escape]
        · cases hstep
          simp [Reader.stored, Reader.append, hmode, Mode.escape]
          omega
      case doubleEscape => exact absurd rfl hdouble
    rw [length_cons] at hfull
    omega

theorem step_word_full (hm : r.mode = .word) (h : r.step c = some r') (hfull : r'.stored = r.stored + 1) :
    (isOrdinary c = true ∧ r'.mode = .word ∧ r.bracket.next c = some r'.bracket) ∨ (c = backslash ∧ r'.mode = .wordEscape) := by
  simp only [Reader.step, hm] at h
  split_ifs at h with hb hn hs hd hq ho
  case neg =>
    obtain ⟨bracket, hnext, rfl⟩ := literal_eq h
    simp only [Bool.or_eq_true, not_or, Bool.not_eq_true] at hb ho
    exact .inl ⟨(ordinary_iff c).mpr ⟨hb, hn, hs, hd, hq, ho⟩, rfl, hnext⟩
  all_goals obtain rfl := some.inj h
  all_goals first
    | exact .inr ⟨hs, rfl⟩
    | simp [Reader.stored, Reader.push, Reader.endLine, hm, Mode.escape] at hfull

/-- What is taken byte by byte, in a word that has begun. -/
def Continues (bracket : Bracket) (s : CStr) : Prop :=
  (∀ c ∈ s, isOrdinary c = true) ∧ s.foldlM Bracket.next bracket ≠ none

theorem continues_of_read (hclean : r.Clean) (hm : r.mode = .word) (h : s.foldlM Reader.step r = some r')
    (hfull : r'.stored = r.stored + s.length) :
    Continues r.bracket s ∨ ∃ front, s = front ++ [backslash] ∧ Continues r.bracket front := by
  induction s generalizing r with
  | nil => exact .inl ⟨by simp, nofun⟩
  | cons c s ih =>
    rw [foldlM_cons] at h
    obtain ⟨r₁, hstep, hread⟩ := bind_eq_some_iff.mp h
    obtain ⟨hclean₁, -, -, hle⟩ := step_grows hclean hstep
    obtain ⟨-, -, -, hle'⟩ := read_grows hclean₁ hread
    rw [length_cons] at hfull
    rcases step_word_full hm hstep (by omega) with ⟨hc, hm₁, hnext⟩ | ⟨rfl, hm₁⟩
    · have hcons {w : CStr} (hw : Continues r₁.bracket w) : Continues r.bracket (c :: w) := by
        refine ⟨forall_mem_cons.mpr ⟨hc, hw.1⟩, ?_⟩
        rw [foldlM_cons, hnext]
        exact hw.2
      rcases ih hclean₁ hm₁ hread (by omega) with hs | ⟨front, rfl, hfront⟩
      · exact .inl (hcons hs)
      · exact .inr ⟨c :: front, rfl, hcons hfront⟩
    · obtain rfl := nil_of_escape hclean₁ (by rw [hm₁]; rfl) (by rw [hm₁]; decide) hread (by omega)
      exact .inr ⟨[], rfl, by simp, nofun⟩

theorem step_blank_full (hclean : r.Clean) (hm : r.mode = .blank) (h : r.step c = some r') (hfull : r'.stored = r.stored + 1) :
    (isOrdinary c = true ∧ c ≠ hash ∧ c ≠ tilde ∧ r'.mode = .word ∧ Bracket.next .outside c = some r'.bracket) ∨
      (c = backslash ∧ r'.mode = .blankEscape) := by
  have hword : r.word = [] := hclean (by rw [hm]; rfl)
  simp only [Reader.step, hm] at h
  split_ifs at h with hb hn hh hs hd hq ho
  case neg =>
    obtain ⟨bracket, hnext, rfl⟩ := begins_literal_eq h
    simp only [Bool.or_eq_true, decide_eq_true_eq, not_or, Bool.not_eq_true] at hb ho
    exact .inl ⟨(ordinary_iff c).mpr ⟨hb, hn, hs, hd, hq, ho.1⟩, hh, ho.2, rfl, hnext⟩
  all_goals first
    | obtain ⟨-, rfl⟩ := begins_eq h
      simp [Reader.stored, hm, hword, Mode.escape] at hfull
    | obtain rfl := some.inj h
      first
        | exact .inr ⟨hs, rfl⟩
        | simp [Reader.stored, Reader.endLine, hm, Mode.escape] at hfull

theorem plainEnd_of_read (hclean : r.Clean) (hm : r.mode = .blank) (hne : s ≠ [])
    (h : s.foldlM Reader.step r = some r') (hfull : r'.stored = r.stored + s.length) : PlainEnd s := by
  cases s with
  | nil => exact absurd rfl hne
  | cons c s =>
    rw [foldlM_cons] at h
    obtain ⟨r₁, hstep, hread⟩ := bind_eq_some_iff.mp h
    obtain ⟨hclean₁, -, -, hle⟩ := step_grows hclean hstep
    obtain ⟨-, -, -, hle'⟩ := read_grows hclean₁ hread
    rw [length_cons] at hfull
    rcases step_blank_full hclean hm hstep (by omega) with ⟨hc, hhash, htilde, hm₁, hnext⟩ | ⟨rfl, hm₁⟩
    · have hplain {w : CStr} (hw : Continues r₁.bracket w) : PlainWord (c :: w) := by
        refine ⟨by simp, forall_mem_cons.mpr ⟨hc, hw.1⟩, ⟨by simp [hhash], by simp [htilde]⟩, ?_⟩
        rw [foldlM_cons, hnext]
        exact hw.2
      rcases continues_of_read hclean₁ hm₁ hread (by omega) with hs | ⟨front, rfl, hfront⟩
      · exact .inl (hplain hs)
      · exact .inr ⟨c :: front, rfl, .inr (hplain hfront)⟩
    · obtain rfl := nil_of_escape hclean₁ (by rw [hm₁]; rfl) (by rw [hm₁]; decide) hread (by omega)
      exact .inr ⟨[], rfl, .inl rfl⟩

end Full

section

variable (hplain : PlainWord program) (hequals : equals ∉ program) (hreserved : program ∉ reserved)
include hplain hequals hreserved

theorem simpleCommand_program (rest : CStr) : simpleCommand (program ++ space :: rest) =
      (rest.foldlM Reader.step ⟨.blank, [], [program], false, .outside⟩).bind Reader.finish := by
  obtain ⟨bracket, hprogram⟩ := read_plainWord hplain []
  have hblank : Reader.step ⟨.word, program, [], false, bracket⟩ space = some ⟨.blank, [], [program], false, .outside⟩ := rfl
  rw [simpleCommand, foldlM_append, start, hprogram]
  simp only [bind_eq_bind, bind_some, foldlM_cons, hblank]
  cases hread : rest.foldlM Reader.step ⟨.blank, [], [program], false, .outside⟩ with
  | none => rfl
  | some r =>
    simp only [bind_some]
    cases hfinish : r.finish with
    | none => rfl
    | some ws =>
      have hclean : Reader.Clean ⟨.blank, [], [program], false, .outside⟩ := fun _ => rfl
      obtain ⟨hclean', hwords, -, -⟩ := read_grows hclean hread
      obtain ⟨args, rfl⟩ := hwords.trans (finish_spec hclean' hfinish).1
      simp [hequals, hreserved]

theorem arguments_iff (text : CStr) : (∃ args, simpleCommand (program ++ space :: text) = some (program :: args) ∧
        (args = [] ∨ args = [text])) ↔
      PlainEnd text ∨ ignorable .blank text = true := by
  have hclean : Reader.Clean ⟨.blank, [], [program], false, .outside⟩ := fun _ => rfl
  rw [simpleCommand_program hplain hequals hreserved]
  constructor
  · rintro ⟨args, hread, hargs⟩
    obtain ⟨r, hr, hfinish⟩ := bind_eq_some_iff.mp hread
    rcases hargs with rfl | rfl
    · exact Or.inr (ignorable_of_read hclean rfl hr hfinish rfl)
    · by_cases hne : text = []
      · exact Or.inr (by rw [hne]; rfl)
      · have hstored := (finish_spec (read_grows hclean hr).1 hfinish).2.2
        refine Or.inl (plainEnd_of_read hclean rfl hne hr ?_)
        rw [← hstored]
        simp [Reader.stored, Mode.escape]
  · rintro ((hword | ⟨front, rfl, rfl | hfront⟩) | hignored)
    · obtain ⟨bracket, hread⟩ := read_plainWord hword [program]
      exact ⟨[text], by rw [hread]; rfl, Or.inr rfl⟩
    · exact ⟨[[backslash]], rfl, Or.inr rfl⟩
    · obtain ⟨bracket, hread⟩ := read_plainWord hfront [program]
      refine ⟨[front ++ [backslash]], ?_, Or.inr rfl⟩
      rw [foldlM_append, hread]
      rfl
    · obtain ⟨r, hr, hfinish⟩ := read_ignorable (r := ⟨.blank, [], [program], false, .outside⟩) hignored
      exact ⟨[], by rw [hr]; exact hfinish, Or.inl rfl⟩

end

end Amplet.ShellWords
