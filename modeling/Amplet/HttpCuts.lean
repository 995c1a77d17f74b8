import Amplet.HttpScanner

/-!
# Cuts that do not matter

A cutting of a page gives the objects of the whole page when no cut is inside a token that
the scanner acts on. A token that is skipped may be cut, unless the rest of it and the text
behind it make up a word that the whole page does not have: the end of a script or of
`<noscript>`, or `href=` in a link behind another `h`. The scan of the whole page stops at
`</html>`, that of the buffers only for the buffer it is in.
-/

namespace Amplet.HttpCuts
open List Option Bytes HttpObjects HttpScanner RuleScanner

/-- The texts that are skipped in one token. -/
def isPlain : Start → UInt8 → Bool
  | .comment => fun b => b ≠ 45 ∧ b ≠ 10
  | .noscript => fun b => b ≠ 60 ∧ b ≠ 10
  | .script => fun b => b ≠ 115 ∧ b ≠ 60 ∧ b ≠ 62 ∧ b ≠ 10
  | .scriptbody => fun b => b ≠ 60
  | .img => fun b => b ≠ 115 ∧ b ≠ 62 ∧ b ≠ 10
  | .linktag | .style => fun b => b ≠ 104 ∧ b ≠ 114 ∧ b ≠ 62 ∧ b ≠ 10
  | _ => fun _ => false

def closingWord : Start → CStr
  | .scriptbody => cstr "</script>"
  | _ => cstr "</noscript>"

/-- The rest of a skipped token makes up a word with the text behind it. -/
def Forms (start : Start) (front next : CStr) : Prop :=
  match start with
  | .noscript | .scriptbody => front.head? = some 60 ∧
      ∃ inside, 47 ∉ inside ∧ 10 ∉ inside ∧ inside ++ closingWord start <+: next
  | .linktag | .style => front = [104] ∧
      ∃ n q, replicate (n + 1) 104 ++ (cstr "ref=" ++ [Quote.mark q]) <+: next
  | _ => False

/-- What opens a tag, or is a relation outside of one. -/
def tags : List CStr := [cstr "<script", cstr "<img", cstr "<link", cstr "rel='"]

def Tagless (text : CStr) : Prop := ∀ word ∈ tags, ¬ word <:+: text

section Locality

variable {text rest token : CStr} {start : Start} {n : ℕ}

def IsClosing (token : CStr) : Prop := ∃ n, 2 ≤ n ∧ token = replicate n 45 ++ [62]

theorem closingDashes_append (h : IsClosing token) (rest : CStr) : closingDashes (token ++ rest) = token.length := by
  obtain ⟨n, hn, rfl⟩ := h
  have hrun : run (fun b : UInt8 => b = 45) (replicate n 45 ++ 62 :: rest) = n :=
    (run_append (by simp) (by simp)).trans length_replicate
  rw [append_assoc, singleton_append, closingDashes, hrun, drop_left' length_replicate, if_pos ⟨hn, rfl⟩]
  simp

theorem closingDashes_take (h : 0 < closingDashes text) : IsClosing (text.take (closingDashes text)) := by
  unfold closingDashes at h ⊢
  dsimp only at h ⊢
  split_ifs at h ⊢ with hclosing
  · refine ⟨run (fun b : UInt8 => b = 45) text, hclosing.1, ?_⟩
    rw [take_add, take_one, hclosing.2]
    refine congrArg (· ++ [62]) (eq_replicate_iff.mpr ⟨?_, fun b hb => ?_⟩)
    · exact length_take_of_le ((run_local _).le text)
    · exact of_decide_eq_true (run_take _ text b hb)
  · exact absurd h (lt_irrefl 0)

theorem rules_local : ∀ rule ∈ rules, Local rule.longest := by
  have hsheet : Local sheetRelation := (literal_local _).max (literal_local _)
  have hicon (q : Quote) : Local (iconRelation q) :=
    enclosed_local (P := fun _ => (cstr "icon" <:+: ·)) _ (by cases q <;> decide)
  have hclosing : Local closingDashes :=
    .of_words (fun _ h => closingDashes_take h) fun _ rest h => closingDashes_append h rest
  have hentity : Local decimalEntity := by
    have hmatch : decimalEntity = enclosed (cstr "&#") isdigit (fun n _ => 2 ≤ n ∧ n ≤ 3) 59 := by
      funext text
      simp only [decimalEntity, enclosed, and_assoc]
      rfl
    rw [hmatch]
    exact enclosed_local _ (by decide)
  intro rule hrule
  fin_cases hrule
  all_goals first
    | exact literal_local _
    | exact run_local _
    | exact headed_local _ _
    | exact single_local _
    | exact pair_local _ _
    | exact hsheet
    | exact hicon _
    | exact hclosing
    | exact hentity

theorem turn_le (start : Start) (h : text ≠ []) : (turn start text).1 ≤ text.length := by
  rw [turn]
  cases hbest : best text (active start rules) with
  | none => exact length_pos_of_ne_nil h
  | some next =>
    obtain ⟨⟨rule, hrule, hlongest, -⟩, -, -⟩ := best_some hbest
    rw [getD_some, ← hlongest]
    exact (rules_local rule (mem_of_mem_filter hrule)).le text

theorem turn_nil (start : Start) : turn start [] = (1, .skip) := by cases start <;> rfl

/-- A token inside the buffer is the token of the page. -/
theorem turn_cut (h : (turn start (text ++ rest)).1 ≤ text.length) : turn start text = turn start (text ++ rest) := by
  have hlongest : ∀ rule ∈ active start rules, rule.longest (text ++ rest) ≤ text.length := by
    intro rule hrule
    obtain ⟨hrule, hstart⟩ := mem_filter.mp hrule
    exact (longest_le_turn start _ rule hrule (of_decide_eq_true hstart)).trans h
  have hbest : best text (active start rules) = best (text ++ rest) (active start rules) :=
    best_cut (fun rule hrule => rules_local rule (mem_of_mem_filter hrule)) hlongest
  rw [turn, turn, hbest]

end Locality

section Skips

variable {s : Scanner} {start : Start} {action : HttpScanner.Action} {text rest : CStr} {n : ℕ}

theorem turn_eq (hpos : 0 < n) (hmost : ∀ rule ∈ rules, start ∈ rule.starts →
      rule.longest text ≤ n ∧ (rule.longest text = n → rule.action = action))
    (hfound : ∃ rule ∈ rules, start ∈ rule.starts ∧ rule.longest text = n) : turn start text = (n, action) := by
  obtain ⟨rule, hrule, hstart, hn⟩ := hfound
  have hbest : best text (active start rules) = some (n, action) := by
    refine best_eq hpos (fun rule hrule => ?_) ⟨rule, mem_filter.mpr ⟨hrule, decide_eq_true hstart⟩, hn⟩
    obtain ⟨hrule, hstart⟩ := mem_filter.mp hrule
    exact hmost rule hrule (of_decide_eq_true hstart)
  rw [turn, hbest, getD_some]

theorem unmatched {m : ℕ} {P : Prop} (hpos : 0 < n) (h : m = 0) : m ≤ n ∧ (m = n → P) :=
  ⟨by omega, fun hn => by omega⟩

theorem closingDashes_of_ne {b : UInt8} (h : b ≠ 45) (text : CStr) : closingDashes (b :: text) = 0 := by
  simp [closingDashes, run, h]

theorem iconRelation_of_ne {b : UInt8} (h : b ≠ 114) (q : Quote) (text : CStr) : iconRelation q (b :: text) = 0 := by
  refine if_neg fun hicon => h ?_
  obtain ⟨rest, hrest⟩ := isPrefixOf_iff_prefix.mp hicon.1
  exact (cons.inj hrest).1.symm

theorem sheetRelation_of_ne {b : UInt8} (h : b ≠ 114) (text : CStr) : sheetRelation (b :: text) = 0 := by
  rw [sheetRelation, literal_of_ne (c := 114) rfl h, literal_of_ne (c := 114) rfl h, max_self]

theorem turn_plain {b : UInt8} (h : isPlain start b = true) (text : CStr) :
    turn start (b :: text) = (run (isPlain start) (b :: text), .skip) := by
  have hpos : 0 < run (isPlain start) (b :: text) := by simp [run, h]
  refine turn_eq hpos (fun rule hrule hstart => ?_) ?_
  · fin_cases hrule <;> fin_cases hstart <;> dsimp only <;>
      simp only [isPlain, decide_eq_true_eq, Bool.false_eq_true] at h
    all_goals first
      | exact ⟨le_rfl, fun _ => rfl⟩
      | exact unmatched hpos (literal_of_ne (c := 60) rfl (by simp [h]) _)
      | exact unmatched hpos (literal_of_ne (c := 115) rfl (by simp [h]) _)
      | exact unmatched hpos (literal_of_ne (c := 104) rfl (by simp [h]) _)
      | exact unmatched hpos (headed_of_ne (by simp [h]) _ _)
      | exact unmatched hpos (single_of_not (by simp [h]) _)
      | exact unmatched hpos (pair_of_ne (by simp [h]) _ _)
      | exact unmatched hpos (closingDashes_of_ne (by simp [h]) _)
      | exact unmatched hpos (sheetRelation_of_ne (by simp [h]) _)
      | exact unmatched hpos (iconRelation_of_ne (by simp [h]) _ _)
  · cases start with
    | comment => exact ⟨_, mem_of_getElem? (i := 1) rfl, mem_singleton_self _, rfl⟩
    | noscript => exact ⟨_, mem_of_getElem? (i := 6) rfl, mem_singleton_self _, rfl⟩
    | script => exact ⟨_, mem_of_getElem? (i := 12) rfl, mem_singleton_self _, rfl⟩
    | scriptbody => exact ⟨_, mem_of_getElem? (i := 17) rfl, mem_singleton_self _, rfl⟩
    | img => exact ⟨_, mem_of_getElem? (i := 21) rfl, mem_singleton_self _, rfl⟩
    | linktag | style => exact ⟨_, mem_of_getElem? (i := 25) rfl, by decide, rfl⟩
    | _ => cases h

theorem turn_dash (h : closingDashes (45 :: text) = 0) :
    turn .comment (45 :: text) = (headed 45 (fun b => b ≠ 45 ∧ b ≠ 62 ∧ b ≠ 10) (45 :: text), .skip) := by
  have hpos : 0 < headed 45 (fun b : UInt8 => b ≠ 45 ∧ b ≠ 62 ∧ b ≠ 10) (45 :: text) := by simp [headed]
  refine turn_eq hpos (fun rule hrule hstart => ?_) ⟨_, mem_of_getElem? (i := 2) rfl, mem_singleton_self _, rfl⟩
  generalize hs : Start.comment = start at hstart
  fin_cases hrule <;> fin_cases hstart <;> cases hs
  · exact unmatched hpos rfl
  · exact ⟨le_rfl, fun _ => rfl⟩
  · exact unmatched hpos rfl
  · exact unmatched hpos h

theorem turn_angle (hs : start = .noscript ∨ start = .scriptbody) (h : literal (closingWord start) (60 :: text) = 0) :
    turn start (60 :: text) = (headed 60 (fun b => b ≠ 47 ∧ b ≠ 10) (60 :: text), .skip) := by
  have hpos : 0 < headed 60 (fun b : UInt8 => b ≠ 47 ∧ b ≠ 10) (60 :: text) := by simp [headed]
  refine turn_eq hpos (fun rule hrule hstart => ?_) ?_
  · fin_cases hrule <;> fin_cases hstart <;> first | (rcases hs with hs | hs <;> cases hs; done) | dsimp only
    · exact unmatched hpos rfl
    · exact ⟨le_rfl, fun _ => rfl⟩
    · exact unmatched hpos rfl
    · exact unmatched hpos h
    · exact unmatched hpos rfl
    · exact ⟨le_rfl, fun _ => rfl⟩
    · exact unmatched hpos h
  · rcases hs with rfl | rfl
    · exact ⟨_, mem_of_getElem? (i := 7) rfl, mem_singleton_self _, rfl⟩
    · exact ⟨_, mem_of_getElem? (i := 18) rfl, mem_singleton_self _, rfl⟩

theorem turn_closing {token : CStr} (h : IsClosing token) (rest : CStr) :
    turn .comment (token ++ rest) = (token.length, .pop) := by
  have hclosing := closingDashes_append h rest
  obtain ⟨n, hn, rfl⟩ := h
  have htext : replicate n 45 ++ [62] ++ rest = 45 :: 45 :: (replicate (n - 2) 45 ++ [62] ++ rest) := by
    obtain ⟨k, rfl⟩ := Nat.exists_eq_add_of_le' hn
    rfl
  have hlength : (replicate n (45 : UInt8) ++ [62]).length = n + 1 := by simp
  have hpos : 0 < (replicate n (45 : UInt8) ++ [62]).length := by omega
  refine turn_eq hpos (fun rule hrule hstart => ?_) ⟨_, mem_of_getElem? (i := 4) rfl, mem_singleton_self _, hclosing⟩
  generalize hs : Start.comment = start at hstart
  fin_cases hrule <;> fin_cases hstart <;> cases hs
  · exact unmatched hpos (by rw [htext]; rfl)
  · have hone : headed 45 (fun b : UInt8 => b ≠ 45 ∧ b ≠ 62 ∧ b ≠ 10) (replicate n 45 ++ [62] ++ rest) = 1 := by
      rw [htext]
      rfl
    dsimp only
    rw [hone]
    exact ⟨by omega, fun hlong => by omega⟩
  · exact unmatched hpos (by rw [htext]; rfl)
  · exact ⟨hclosing.le, fun _ => rfl⟩

section Link

variable (hs : start = .linktag ∨ start = .style)
include hs

theorem turn_pair {d : UInt8} (hd : d ≠ 114 ∧ d ≠ 62 ∧ d ≠ 10) (text : CStr) : turn start (104 :: d :: text) = (2, .skip) := by
  have hpair : pair 104 (fun b => b ≠ 114 ∧ b ≠ 62 ∧ b ≠ 10) (104 :: d :: text) = 2 := by simp [pair, hd]
  have href (q : Quote) : literal (cstr "href=" ++ [q.mark]) (104 :: d :: text) = 0 := by
    refine if_neg fun hword => hd.1 ?_
    obtain ⟨rest, hrest⟩ := isPrefixOf_iff_prefix.mp hword
    exact (cons.inj (cons.inj hrest).2).1.symm
  have hsingle : single (fun b => b = 104) (104 :: d :: text) = 1 := rfl
  refine turn_eq Nat.two_pos (fun rule hrule hstart => ?_) ?_
  · fin_cases hrule <;> fin_cases hstart <;> first | (rcases hs with hs | hs <;> cases hs; done) | dsimp only
    all_goals first
      | exact ⟨hpair.le, fun _ => rfl⟩
      | exact unmatched Nat.two_pos rfl
      | exact unmatched Nat.two_pos (href .double)
      | exact unmatched Nat.two_pos (href .single)
      | exact ⟨hsingle.trans_le (Nat.le_succ 1), fun htwo => absurd (hsingle.symm.trans htwo) (by decide)⟩
  · rcases hs with rfl | rfl <;> exact ⟨_, mem_of_getElem? (i := 26) rfl, by decide, hpair⟩

theorem turn_single (hpair : ∀ d ∈ text.head?, d = 114 ∨ d = 62 ∨ d = 10)
    (href : ∀ q : Quote, ¬ cstr "ref=" ++ [q.mark] <+: text) : turn start (104 :: text) = (1, .skip) := by
  have hnone : pair 104 (fun b => b ≠ 114 ∧ b ≠ 62 ∧ b ≠ 10) (104 :: text) = 0 := by
    cases text with
    | nil => rfl
    | cons d text =>
      refine if_neg fun hboth => ?_
      have hd := of_decide_eq_true hboth.2
      rcases hpair d rfl with rfl | rfl | rfl
      · exact hd.1 rfl
      · exact hd.2.1 rfl
      · exact hd.2.2 rfl
  have hword (q : Quote) : literal (cstr "href=" ++ [q.mark]) (104 :: text) = 0 := by
    refine if_neg fun hword => href q ?_
    obtain ⟨rest, hrest⟩ := isPrefixOf_iff_prefix.mp hword
    exact ⟨rest, (cons.inj hrest).2⟩
  refine turn_eq Nat.one_pos (fun rule hrule hstart => ?_) ?_
  · fin_cases hrule <;> fin_cases hstart <;> first | (rcases hs with hs | hs <;> cases hs; done) | dsimp only
    all_goals first
      | exact ⟨le_rfl, fun _ => rfl⟩
      | exact unmatched Nat.one_pos rfl
      | exact unmatched Nat.one_pos hnone
      | exact unmatched Nat.one_pos (hword .double)
      | exact unmatched Nat.one_pos (hword .single)
  · rcases hs with rfl | rfl <;> exact ⟨_, mem_of_getElem? (i := 31) rfl, by decide, rfl⟩

end Link

theorem yylex_fuel {a b : ℕ} (ha : text.length ≤ a) (hb : text.length ≤ b) (s : Scanner) : yylex a s text = yylex b s text := by
  have hnil (fuel : ℕ) (s : Scanner) : yylex fuel s [] = some s := by cases fuel <;> rfl
  induction a generalizing b s text with
  | zero =>
    obtain rfl := length_eq_zero_iff.mp (Nat.le_zero.mp ha)
    rw [hnil, hnil]
  | succ a ih =>
    cases b with
    | zero =>
      obtain rfl := length_eq_zero_iff.mp (Nat.le_zero.mp hb)
      rw [hnil, hnil]
    | succ b =>
      rw [yylex, yylex]
      dsimp only
      split_ifs
      · rfl
      · rfl
      · have hpos := turn_pos s.start text
        cases perform (turn s.start text).2 (text.take (turn s.start text).1) s with
        | none => rfl
        | some t => exact ih (by rw [length_drop]; omega) (by rw [length_drop]; omega) t

theorem parseResponse_step (h : text ≠ []) (s : Scanner) : parseResponse s text = if (turn s.start text).2 = .stop then some s
      else (perform (turn s.start text).2 (text.take (turn s.start text).1) s).bind fun t =>
        parseResponse t (text.drop (turn s.start text).1) := by
  obtain ⟨m, hm⟩ := Nat.exists_eq_succ_of_ne_zero (length_pos_of_ne_nil h).ne'
  rw [parseResponse, hm, yylex, if_neg h]
  dsimp only
  split_ifs
  · rfl
  · have hpos := turn_pos s.start text
    cases perform (turn s.start text).2 (text.take (turn s.start text).1) s with
    | none => rfl
    | some t => exact yylex_fuel (by rw [length_drop]; omega) le_rfl t

theorem parseResponse_skip (h : turn s.start text = (n, .skip)) : parseResponse s text = parseResponse s (text.drop n) := by
  by_cases hnil : text = []
  · rw [hnil, drop_nil]
  · rw [parseResponse_step hnil, h]
    rfl

theorem skip_plain {plain : CStr} (h : ∀ b ∈ plain, isPlain s.start b = true) (text : CStr) :
    parseResponse s (plain ++ text) = parseResponse s text := by
  cases plain with
  | nil => rfl
  | cons b plain =>
    obtain ⟨more, rest, rfl, hmore, hrest⟩ := Delimited.exists_split_on (fun b => !isPlain s.start b) text
    simp only [Bool.not_eq_false'] at hmore
    simp only [Bool.not_eq_true'] at hrest
    have hall : parseResponse s (b :: plain ++ (more ++ rest)) = parseResponse s rest := by
      rw [← append_assoc, cons_append, cons_append,
        parseResponse_skip (turn_plain (h b (mem_cons_self ..)) _), ← cons_append, ← cons_append,
        run_append (forall_mem_append.mpr ⟨h, hmore⟩) hrest, drop_left]
    rw [hall]
    cases more with
    | nil => rfl
    | cons c more =>
      rw [cons_append, parseResponse_skip (turn_plain (hmore c (mem_cons_self ..)) _), ← cons_append,
        run_append hmore hrest, drop_left]

theorem skip_angle (hs : s.start = .noscript ∨ s.start = .scriptbody) {inside : CStr}
    (hinside : 47 ∉ inside ∧ 10 ∉ inside) (hrest : ∀ b ∈ rest.head?, b = 47 ∨ b = 10)
    (hword : ¬ ∃ before, 47 ∉ before ∧ 10 ∉ before ∧ before ++ closingWord s.start <+: inside ++ rest) :
    parseResponse s (inside ++ rest) = parseResponse s rest := by
  obtain ⟨before, back, rfl, hbefore, hback⟩ := Delimited.exists_split_at 60 inside
  simp only [mem_append, not_or] at hinside
  obtain ⟨⟨hslash, hslash'⟩, hline, hline'⟩ := hinside
  rw [append_assoc] at hword ⊢
  have hplain : ∀ b ∈ before, isPlain s.start b = true := by
    intro b hb
    have hangle : b ≠ 60 := fun heq => hbefore (heq ▸ hb)
    have hend : b ≠ 10 := fun heq => hline (heq ▸ hb)
    rcases hs with hs | hs <;> simp [hs, isPlain, hangle, hend]
  rw [skip_plain hplain]
  cases back with
  | nil => rfl
  | cons c back =>
    obtain rfl := hback c rfl
    have hnone : literal (closingWord s.start) (60 :: (back ++ rest)) = 0 := by
      refine if_neg fun hprefix => hword ⟨before, hslash, hline, ?_⟩
      exact (prefix_append_right_inj before).mpr (List.isPrefixOf_iff_prefix.mp hprefix)
    have hback : ∀ b ∈ back, decide (b ≠ 47 ∧ b ≠ 10) = true := by
      intro b hb
      refine decide_eq_true ⟨fun heq => hslash' ?_, fun heq => hline' ?_⟩
      · exact heq ▸ mem_cons_of_mem _ hb
      · exact heq ▸ mem_cons_of_mem _ hb
    have hstop : ∀ b ∈ rest.head?, decide (b ≠ 47 ∧ b ≠ 10) = false := by
      intro b hb
      rcases hrest b hb with rfl | rfl <;> decide
    rw [cons_append, parseResponse_skip (turn_angle hs hnone), headed, if_pos rfl, run_append hback hstop,
      drop_succ_cons, drop_left]

theorem skip_h (hs : s.start = .linktag ∨ s.start = .style) (n : ℕ) (hh : ∀ b ∈ text.head?, b ≠ 104)
    (href : ∀ q : Quote, ¬ cstr "ref=" ++ [q.mark] <+: text) :
    parseResponse s (replicate n 104 ++ text) = parseResponse s text := by
  induction n using Nat.strong_induction_on with
  | h n ih =>
    match n with
    | 0 => rfl
    | 1 =>
      change parseResponse s (104 :: text) = _
      by_cases hend : ∀ d ∈ text.head?, d = 114 ∨ d = 62 ∨ d = 10
      · rw [parseResponse_skip (turn_single hs hend href), drop_one, tail_cons]
      · -- the pair takes a byte that is skipped without it, too
        cases text with
        | nil => simp at hend
        | cons d text =>
          have hd : d ≠ 114 ∧ d ≠ 62 ∧ d ≠ 10 := by simpa using hend
          have hplain : ∀ b ∈ [d], isPlain s.start b = true := by
            rcases hs with hs | hs <;> simp [hs, isPlain, hd, hh d rfl]
          rw [parseResponse_skip (turn_pair hs hd text)]
          exact (skip_plain hplain text).symm
    | n + 2 =>
      change parseResponse s (104 :: 104 :: (replicate n 104 ++ text)) = _
      rw [parseResponse_skip (turn_pair hs (by decide) _)]
      exact ih n (by omega)

theorem skip_dashes (hs : s.start = .comment) (n : ℕ) : parseResponse s (replicate n 45) = some s := by
  induction n with
  | zero => rfl
  | succ n ih =>
    have hnone : closingDashes (45 :: replicate n 45) = 0 := by
      refine if_neg fun hclosing => ?_
      have hmem := mem_of_mem_drop (mem_of_mem_head? hclosing.2)
      rw [← replicate_succ] at hmem
      exact absurd (eq_of_mem_replicate hmem) (by decide)
    have hone : headed 45 (fun b : UInt8 => b ≠ 45 ∧ b ≠ 62 ∧ b ≠ 10) (45 :: replicate n 45) = 1 := by
      cases n <;> rfl
    rw [replicate_succ, parseResponse_skip (by rw [hs]; exact turn_dash hnone), hone]
    exact ih

theorem skip_dash (hs : s.start = .comment) {inside : CStr} (h : ∀ b ∈ inside, b ≠ 45 ∧ b ≠ 62 ∧ b ≠ 10) :
    parseResponse s (45 :: inside) = some s := by
  have hrun : run (fun b : UInt8 => b = 45) (45 :: inside) = 1 := by
    cases inside with
    | nil => rfl
    | cons b inside => simp [run, (h b (mem_cons_self ..)).1]
  have hnone : closingDashes (45 :: inside) = 0 := if_neg fun hclosing => by
    rw [hrun] at hclosing
    omega
  have hlength : headed 45 (fun b : UInt8 => b ≠ 45 ∧ b ≠ 62 ∧ b ≠ 10) (45 :: inside) = (45 :: inside).length := by
    have hall : run (fun b : UInt8 => b ≠ 45 ∧ b ≠ 62 ∧ b ≠ 10) (inside ++ []) = inside.length :=
      run_append (by simpa using h) (by simp)
    rw [append_nil] at hall
    rw [headed, if_pos rfl, hall, length_cons]
  rw [parseResponse_skip (by rw [hs]; exact turn_dash hnone), hlength, drop_length]
  rfl

end Skips

section Shapes

variable {start : Start} {text : CStr} {n : ℕ}

/-- The tokens of two bytes or more that are skipped. -/
inductive SkipShape : Start → CStr → ℕ → Prop
  | plain {start : Start} {text : CStr} {n : ℕ} (h : ∀ b ∈ text.take n, isPlain start b = true) :
      SkipShape start text n
  | dash {inside rest : CStr} (h : ∀ b ∈ inside, b ≠ 45 ∧ b ≠ 62 ∧ b ≠ 10) :
      SkipShape .comment (45 :: (inside ++ rest)) (inside.length + 1)
  | angle {start : Start} {inside rest : CStr} (hs : start = .noscript ∨ start = .scriptbody)
      (h : 47 ∉ inside ∧ 10 ∉ inside) (hrest : ∀ b ∈ rest.head?, b = 47 ∨ b = 10) :
      SkipShape start (60 :: (inside ++ rest)) (inside.length + 1)
  | pair {start : Start} {d : UInt8} {rest : CStr} (hs : start = .linktag ∨ start = .style)
      (hd : d ≠ 114 ∧ d ≠ 62 ∧ d ≠ 10) : SkipShape start (104 :: d :: rest) 2

theorem turn_cases (start : Start) (text : CStr) : turn start text = (1, .skip) ∨
    ∃ rule ∈ rules, start ∈ rule.starts ∧ 0 < rule.longest text ∧
      rule.longest text = (turn start text).1 ∧ rule.action = (turn start text).2 := by
  rw [turn]
  cases hbest : best text (active start rules) with
  | none => exact .inl rfl
  | some next =>
    obtain ⟨⟨rule, hrule, hlongest, haction⟩, hpos, -⟩ := best_some hbest
    obtain ⟨hrule, hstart⟩ := mem_filter.mp hrule
    exact .inr ⟨rule, hrule, of_decide_eq_true hstart, hlongest ▸ hpos, hlongest, haction⟩

theorem exists_rule (h : 2 ≤ (turn start text).1) : ∃ rule ∈ rules, start ∈ rule.starts ∧
    rule.longest text = (turn start text).1 ∧ rule.action = (turn start text).2 := by
  rcases turn_cases start text with hturn | ⟨rule, hrule, hstart, -, hlongest, haction⟩
  · rw [hturn] at h
    exact absurd h (by decide)
  · exact ⟨rule, hrule, hstart, hlongest, haction⟩

theorem single_lt {p : UInt8 → Bool} : single p text < 2 := by
  cases text with
  | nil => exact Nat.two_pos
  | cons b text =>
    rw [single]
    split_ifs <;> decide

theorem skipShape_angle (hs : start = .noscript ∨ start = .scriptbody) (h : 0 < headed 60 (fun b => b ≠ 47 ∧ b ≠ 10) text) :
    SkipShape start text (headed 60 (fun b => b ≠ 47 ∧ b ≠ 10) text) := by
  obtain ⟨inside, rest, rfl, hlength, hinside, hrest⟩ := exists_of_headed h
  rw [hlength]
  refine .angle hs ⟨fun hmem => ?_, fun hmem => ?_⟩ fun b hb => ?_
  · exact absurd (hinside _ hmem) (by decide)
  · exact absurd (hinside _ hmem) (by decide)
  · have hstop := of_decide_eq_false (hrest b hb)
    tauto

theorem skipShape_pair (hs : start = .linktag ∨ start = .style) (h : 2 ≤ pair 104 (fun b => b ≠ 114 ∧ b ≠ 62 ∧ b ≠ 10) text) :
    SkipShape start text (pair 104 (fun b => b ≠ 114 ∧ b ≠ 62 ∧ b ≠ 10) text) := by
  match text with
  | [] | [_] => exact absurd h (by simp [pair])
  | c :: d :: rest =>
    rw [pair] at h ⊢
    split_ifs at h ⊢ with hboth
    · obtain ⟨rfl, hd⟩ := hboth
      exact .pair hs (of_decide_eq_true hd)
    · exact absurd h (by decide)

theorem skipShape (h : 2 ≤ (turn start text).1) (haction : (turn start text).2 = .skip) :
    SkipShape start text (turn start text).1 := by
  obtain ⟨rule, hrule, hstart, hlongest, hrule'⟩ := exists_rule h
  rw [← hlongest] at h ⊢
  rw [haction] at hrule'
  clear hlongest haction
  fin_cases hrule <;> fin_cases hstart <;> cases hrule' <;> dsimp only at h ⊢
  all_goals first
    | exact .plain fun b hb => run_take _ text b hb
    | exact absurd h (not_le.mpr single_lt)
    | exact skipShape_angle (.inl rfl) (by omega)
    | exact skipShape_angle (.inr rfl) (by omega)
    | exact skipShape_pair (.inl rfl) h
    | exact skipShape_pair (.inr rfl) h
    | skip
  obtain ⟨inside, rest, rfl, hlength, hinside, -⟩ := exists_of_headed (Nat.two_pos.trans_le h)
  rw [hlength]
  exact .dash fun b hb => of_decide_eq_true (hinside b hb)

theorem isClosing_of_pop (h : 2 ≤ (turn .comment text).1) (haction : (turn .comment text).2 = .pop) :
    IsClosing (text.take (turn .comment text).1) := by
  obtain ⟨rule, hrule, hstart, hlongest, hrule'⟩ := exists_rule h
  rw [← hlongest] at h ⊢
  rw [haction] at hrule'
  clear hlongest haction
  generalize hs : Start.comment = start at hstart
  fin_cases hrule <;> fin_cases hstart <;> cases hrule' <;> cases hs
  exact closingDashes_take (Nat.two_pos.trans_le h)

end Shapes

/-- The cut is `k` bytes into the token at the front of the text. -/
def Tolerated (s : Scanner) (text : CStr) (k : ℕ) (next : CStr) : Prop :=
  ((turn s.start text).2 = .skip ∧ ¬ Forms s.start (text.take k) next) ∨
    (s.start = .comment ∧ (turn s.start text).2 = .pop ∧ k + 3 ≤ (turn s.start text).1)

def CutsKept (buffers : List CStr) (s : Scanner) (text : CStr) : Prop :=
  ∀ k next later, 0 < k → next :: later <:+ buffers → (next :: later).flatten = text.drop k →
    ((turn s.start text).2 = .stop → Tagless (text.drop k)) ∧
      ((turn s.start text).2 ≠ .stop → k < (turn s.start text).1 → Tolerated s text k next)

/-- Where the scan of a page in one buffer takes its tokens. -/
def places : ℕ → Scanner → CStr → List (Scanner × CStr)
  | 0, s, text => [(s, text)]
  | fuel + 1, s, text =>
    (s, text) ::
      if text = [] ∨ (turn s.start text).2 = .stop then []
      else
        match perform (turn s.start text).2 (text.take (turn s.start text).1) s with
        | none => []
        | some t => places fuel t (text.drop (turn s.start text).1)

/-- No cut is inside a token that counts, and nothing is named behind the end of the page. -/
def Clean (buffers : List CStr) : Prop :=
  ∀ place ∈ places buffers.flatten.length .fresh buffers.flatten, CutsKept buffers place.1 place.2

section Crossing

variable {buffers : List CStr} {s t : Scanner} {text : CStr} {n : ℕ}

/-- The pieces of the token are skipped, but for the last, which does what the token does. -/
structure Crossing (buffers : List CStr) (s t : Scanner) (text : CStr) (n : ℕ) : Prop where
  piece : ∀ k m, k + m < n → parseResponse s ((text.drop k).take m) = some s
  last : ∀ k next later, 0 < k → k < n → ((text.drop k).take (n - k) ++ next) :: later <:+ buffers →
      (text.drop k).take (n - k) ++ next ++ later.flatten = text.drop k →
        parseResponse s ((text.drop k).take (n - k) ++ next) = parseResponse t next

theorem Crossing.cross (h : Crossing buffers s t text n) (hn : n ≤ text.length) {k : ℕ} {rest : List CStr} (hk : 0 < k)
    (hkn : k < n) (hrest : rest <:+ buffers) (hflatten : rest.flatten = text.drop k) :
    ∃ b later, later <:+ buffers ∧ b ++ later.flatten = text.drop n ∧ scanBody s rest = scanBody t (b :: later) := by
  induction rest generalizing k with
  | nil =>
    have hlength := congrArg length hflatten
    rw [length_drop, flatten_nil, length_nil] at hlength
    omega
  | cons next later ih =>
    have hlater : later <:+ buffers := (suffix_cons next later).trans hrest
    rw [flatten_cons] at hflatten
    by_cases hend : n ≤ k + next.length
    · have hback : next.take (n - k) = (text.drop k).take (n - k) := by
        rw [← hflatten, take_append_of_le_length (by omega)]
      have hnext : next = (text.drop k).take (n - k) ++ next.drop (n - k) := by
        rw [← hback, take_append_drop]
      refine ⟨next.drop (n - k), later, hlater, ?_, ?_⟩
      · rw [← drop_append_of_le_length (by omega), hflatten, drop_drop, Nat.add_sub_cancel' hkn.le]
      · have hlast := h.last k (next.drop (n - k)) later hk hkn (hnext ▸ hrest) (hnext ▸ hflatten)
        rw [← hnext] at hlast
        rw [scanBody, scanBody, hlast]
    · have hpiece := h.piece k next.length (by omega)
      rw [← hflatten, take_left] at hpiece
      obtain ⟨b, later', hlater', hdrop, hscan⟩ := ih (k := k + next.length) (by omega) (by omega) hlater
        (by rw [← drop_drop, ← hflatten, drop_left])
      refine ⟨b, later', hlater', hdrop, ?_⟩
      rw [scanBody, hpiece, bind_some, hscan]

theorem drop_of_flatten {k : ℕ} {next : CStr} {later : List CStr} (hkn : k ≤ n)
    (h : (text.drop k).take (n - k) ++ next ++ later.flatten = text.drop k) : next ++ later.flatten = text.drop n := by
  have hsplit := h.trans (take_append_drop (n - k) (text.drop k)).symm
  rw [append_assoc, drop_drop, Nat.add_sub_cancel' hkn] at hsplit
  exact append_cancel_left hsplit

theorem mem_inner {k m : ℕ} (h : k + m ≤ n) {b : UInt8} (hb : b ∈ (text.drop k).take m) : b ∈ text.take n := by
  rw [take_drop] at hb
  have hmem := mem_of_mem_drop hb
  rw [← Nat.min_eq_left h, ← take_take] at hmem
  exact mem_of_mem_take hmem

theorem skip_inner {plain : CStr} (h : ∀ b ∈ plain, isPlain s.start b = true) : parseResponse s plain = some s := by
  have hskip := skip_plain h []
  rwa [append_nil] at hskip

theorem crossing_plain (h : ∀ b ∈ text.take n, isPlain s.start b = true) : Crossing buffers s s text n :=
  ⟨fun _ _ hlt => skip_inner fun b hb => h b (mem_inner hlt.le hb),
    fun _ next _ _ hkn _ _ => skip_plain (fun b hb => h b (mem_inner (by omega) hb)) next⟩

theorem crossing_dash (hs : s.start = .comment) {inside : CStr} (h : ∀ b ∈ inside, b ≠ 45 ∧ b ≠ 62 ∧ b ≠ 10) (rest : CStr) :
    Crossing buffers s s (45 :: (inside ++ rest)) (inside.length + 1) := by
  have hplain {k m : ℕ} (hle : k + m ≤ inside.length) : ∀ b ∈ ((inside ++ rest).drop k).take m, isPlain s.start b = true := by
    intro b hb
    have hmem := mem_inner hle hb
    rw [take_left] at hmem
    simp [hs, isPlain, h b hmem]
  refine ⟨fun k m hlt => ?_, fun k next later hk hkn _ _ => ?_⟩
  · cases k with
    | zero =>
      cases m with
      | zero => rfl
      | succ m =>
        rw [drop_zero, take_succ_cons, take_append_of_le_length (by omega)]
        exact skip_dash hs fun b hb => h b (mem_of_mem_take hb)
    | succ k => exact skip_inner (hplain (by omega))
  · cases k with
    | zero => omega
    | succ k => exact skip_plain (hplain (by omega)) next

theorem not_word_of_notMem {inside before : CStr} {start : Start} (h : 47 ∉ inside) :
    ¬ before ++ closingWord start <+: inside := by
  rintro ⟨rest, rfl⟩
  have hslash : 47 ∈ closingWord start := by cases start <;> decide
  exact h (by simp [hslash])

theorem crossing_angle (hs : s.start = .noscript ∨ s.start = .scriptbody) {inside rest : CStr}
    (h : 47 ∉ inside ∧ 10 ∉ inside) (hrest : ∀ b ∈ rest.head?, b = 47 ∨ b = 10)
    (hforms : ∀ k next later, 0 < k → k < inside.length + 1 → next :: later <:+ buffers →
      (next :: later).flatten = (60 :: (inside ++ rest)).drop k → ¬ Forms s.start ((60 :: (inside ++ rest)).take k) next) :
    Crossing buffers s s (60 :: (inside ++ rest)) (inside.length + 1) := by
  have hclean {k m : ℕ} (hle : k + m ≤ inside.length + 1) {b : UInt8}
      (hb : b ∈ ((60 :: (inside ++ rest)).drop k).take m) : b ≠ 47 ∧ b ≠ 10 := by
    have hmem := mem_inner hle hb
    rw [take_succ_cons, take_left] at hmem
    rcases mem_cons.mp hmem with rfl | hmem
    · decide
    · exact ⟨fun heq => h.1 (heq ▸ hmem), fun heq => h.2 (heq ▸ hmem)⟩
  refine ⟨fun k m hlt => ?_, fun k next later hk hkn hsuffix hflatten => ?_⟩
  · have hslash : 47 ∉ ((60 :: (inside ++ rest)).drop k).take m := fun hmem => (hclean hlt.le hmem).1 rfl
    have hskip : parseResponse s (((60 :: (inside ++ rest)).drop k).take m ++ []) = some s := by
      refine skip_angle hs ⟨hslash, fun hmem => (hclean hlt.le hmem).2 rfl⟩ (by simp) ?_
      rintro ⟨before, -, -, hword⟩
      rw [append_nil] at hword
      exact not_word_of_notMem hslash hword
    rwa [append_nil] at hskip
  · have hle : k + (inside.length + 1 - k) ≤ inside.length + 1 := by omega
    refine skip_angle hs ⟨fun hmem => (hclean hle hmem).1 rfl, fun hmem => (hclean hle hmem).2 rfl⟩
      (fun b hb => hrest b ?_) fun hword => hforms k _ later hk hkn hsuffix hflatten ?_
    · have hnext := drop_of_flatten hkn.le hflatten
      rw [drop_succ_cons, drop_left] at hnext
      rw [← hnext, head?_append, hb]
      rfl
    · obtain ⟨k, rfl⟩ := Nat.exists_eq_succ_of_ne_zero hk.ne'
      rcases hs with hs | hs <;> rw [hs] at hword ⊢ <;> exact ⟨rfl, hword⟩

theorem crossing_pair (hs : s.start = .linktag ∨ s.start = .style) {d : UInt8} {rest : CStr} (hd : d ≠ 114 ∧ d ≠ 62 ∧ d ≠ 10)
    (hforms : ∀ next later, next :: later <:+ buffers → (next :: later).flatten = d :: rest →
      ¬ Forms s.start [104] next) : Crossing buffers s s (104 :: d :: rest) 2 := by
  refine ⟨fun k m hlt => ?_, fun k next later hk hkn hsuffix hflatten => ?_⟩
  · obtain ⟨rfl, rfl⟩ | rfl : (k = 0 ∧ m = 1) ∨ m = 0 := by omega
    · have hskip : parseResponse s (replicate 1 104 ++ []) = some s := skip_h hs 1 (by simp) (by simp)
      exact hskip
    · rw [take_zero]
      rfl
  · obtain rfl : k = 1 := by omega
    change parseResponse s (d :: next) = _
    by_cases hh : d = 104
    · subst hh
      obtain ⟨more, back, rfl, hmore, hback⟩ := Delimited.exists_split_on (· ≠ 104) next
      obtain ⟨j, rfl⟩ : ∃ j, more = replicate j 104 :=
        ⟨more.length, eq_replicate_iff.mpr ⟨rfl, by simpa using hmore⟩⟩
      have hh : ∀ b ∈ back.head?, b ≠ 104 := by simpa using hback
      have href : ∀ q : Quote, ¬ cstr "ref=" ++ [q.mark] <+: back := by
        intro q href
        have hword : replicate (j + 1) 104 ++ (cstr "ref=" ++ [q.mark]) <+: 104 :: (replicate j 104 ++ back) :=
          (prefix_append_right_inj (replicate (j + 1) 104)).mpr href
        refine hforms _ later hsuffix hflatten ?_
        rcases hs with hs | hs <;> rw [hs] <;> exact ⟨rfl, j, q, hword⟩
      exact (skip_h hs (j + 1) hh href).trans (skip_h hs j hh href).symm
    · have hplain : ∀ b ∈ [d], isPlain s.start b = true := by
        rcases hs with hs | hs <;> simp [hs, isPlain, hd, hh]
      exact skip_plain hplain next

theorem crossing_closing (hs : s.start = .comment) (hn : n ≤ text.length) (h : IsClosing (text.take n))
    (hcut : ∀ k next later, 0 < k → k < n → next :: later <:+ buffers → (next :: later).flatten = text.drop k →
      k + 3 ≤ n) : Crossing buffers s s.pop text n := by
  obtain ⟨m, -, htoken⟩ := h
  obtain rfl : n = m + 1 := by
    have hlength := congrArg length htoken
    simpa [hn] using hlength
  refine ⟨fun k j hlt => ?_, fun k next later hk hkn hsuffix hflatten => ?_⟩
  · have hdashes : (text.drop k).take j = replicate j 45 := by
      rw [take_drop, ← Nat.min_eq_left hlt.le, ← take_take, htoken,
        take_append_of_le_length (by rw [length_replicate]; omega), take_replicate,
        drop_replicate]
      congr 1
      omega
    rw [hdashes]
    exact skip_dashes hs j
  · have hthree := hcut k _ later hk hkn hsuffix hflatten
    have hback : (text.drop k).take (m + 1 - k) = replicate (m - k) 45 ++ [62] := by
      rw [take_drop, Nat.add_sub_cancel' hkn.le, htoken,
        drop_append_of_le_length (by rw [length_replicate]; omega), drop_replicate]
    rw [hback]
    have hclosing : IsClosing (replicate (m - k) 45 ++ [62]) := ⟨m - k, by omega, rfl⟩
    have hturn : turn s.start (replicate (m - k) 45 ++ [62] ++ next) = _ := hs ▸ turn_closing hclosing next
    rw [parseResponse_step (by simp), hturn, if_neg nofun, drop_left]
    rfl

theorem crossing_skip (h : SkipShape s.start text n)
    (hforms : ∀ k next later, 0 < k → k < n → next :: later <:+ buffers → (next :: later).flatten = text.drop k →
      ¬ Forms s.start (text.take k) next) : Crossing buffers s s text n := by
  generalize hs : s.start = start at h
  cases h with
  | plain h => exact crossing_plain (hs ▸ h)
  | dash h => exact crossing_dash hs h _
  | angle hstart h hrest => exact crossing_angle (hs ▸ hstart) h hrest hforms
  | pair hstart hd =>
    exact crossing_pair (hs ▸ hstart) hd fun next later => hforms 1 next later Nat.one_pos Nat.one_lt_two

end Crossing

section Outside

variable {s : Scanner} {text : CStr}

/-- Not inside a tag: in the text of the page, or in a comment or `<noscript>` of it. -/
def Outside (s : Scanner) : Prop :=
  s.start = .initial ∨ ((s.start = .comment ∨ s.start = .noscript) ∧ s.stack.head? = some .initial)

theorem Tagless.part {part : CStr} (h : Tagless text) (hpart : part <:+: text) : Tagless part :=
  fun word hword hpre => h word hword (hpre.trans hpart)

theorem turn_initial (h : Tagless text) : (turn .initial text).2 = .skip ∨ (turn .initial text).2 = .stop ∨
    (turn .initial text).2 = .push .comment ∨ (turn .initial text).2 = .push .noscript := by
  rcases turn_cases .initial text with hturn | ⟨rule, hrule, hstart, hpos, -, haction⟩
  · exact .inl (by rw [hturn])
  · rw [← haction]
    have hword {word : CStr} (hmem : word ∈ tags) (hliteral : 0 < literal word text) : False := by
      refine h word hmem (IsPrefix.isInfix ?_)
      rw [← literal_take hliteral]
      exact take_prefix ..
    clear haction
    generalize hs : Start.initial = start at hstart
    fin_cases hrule <;> fin_cases hstart <;> cases hs <;> dsimp only at hpos ⊢
    · simp
    · simp
    · exact (hword (by simp [tags]) hpos).elim
    · exact (hword (by simp [tags]) hpos).elim
    · exact (hword (by simp [tags]) hpos).elim
    · refine (h (cstr "rel='") (by simp [tags]) (IsPrefix.isInfix ?_)).elim
      by_contra hprefix
      rw [iconRelation, if_neg fun hicon => hprefix (List.isPrefixOf_iff_prefix.mp hicon.1)] at hpos
      exact lt_irrefl 0 hpos
    · simp
    · simp

theorem turn_aside {start : Start} (hs : start = .comment ∨ start = .noscript) (text : CStr) :
    (turn start text).2 = .skip ∨ (turn start text).2 = .pop := by
  rcases turn_cases start text with hturn | ⟨rule, hrule, hstart, -, -, haction⟩
  · exact .inl (by rw [hturn])
  · rw [← haction]
    clear haction
    fin_cases hrule <;> fin_cases hstart <;> first | (rcases hs with hs | hs <;> cases hs; done) | simp

theorem Outside.perform (hs : Outside s) (h : Tagless text) (hstop : (turn s.start text).2 ≠ .stop) (token : CStr) :
    ∃ t, perform (turn s.start text).2 token s = some t ∧ Outside t ∧ t.found = s.found := by
  obtain ⟨start, stack, url, found⟩ := s
  rcases hs with hs | ⟨hs, hstack⟩
  · obtain rfl : start = .initial := hs
    rcases turn_initial h with haction | haction | haction | haction
    · exact ⟨_, congrArg (HttpScanner.perform · token _) haction, .inl rfl, rfl⟩
    · exact absurd haction hstop
    · exact ⟨_, congrArg (HttpScanner.perform · token _) haction, .inr ⟨.inl rfl, rfl⟩, rfl⟩
    · exact ⟨_, congrArg (HttpScanner.perform · token _) haction, .inr ⟨.inr rfl, rfl⟩, rfl⟩
  · obtain ⟨stack, rfl⟩ := head?_eq_some_iff.mp hstack
    rcases turn_aside hs text with haction | haction
    · exact ⟨_, congrArg (HttpScanner.perform · token _) haction, .inr ⟨hs, rfl⟩, rfl⟩
    · exact ⟨_, congrArg (HttpScanner.perform · token _) haction, .inl rfl, rfl⟩

theorem Outside.yylex (fuel : ℕ) (hs : Outside s) (h : Tagless text) :
    ∃ t, yylex fuel s text = some t ∧ Outside t ∧ t.found = s.found := by
  induction fuel generalizing s text with
  | zero => exact ⟨s, rfl, hs, rfl⟩
  | succ fuel ih =>
    rw [HttpScanner.yylex]
    dsimp only
    split_ifs with hnil hstop
    · exact ⟨s, rfl, hs, rfl⟩
    · exact ⟨s, rfl, hs, rfl⟩
    · obtain ⟨t, hperform, ht, hfound⟩ := hs.perform h hstop (text.take (turn s.start text).1)
      rw [hperform, ← hfound]
      exact ih ht (h.part (drop_suffix ..).isInfix)

theorem Outside.scanBody (hs : Outside s) {buffers : List CStr} (h : Tagless buffers.flatten) :
    (scanBody s buffers).map Scanner.found = some s.found := by
  induction buffers generalizing s with
  | nil => rfl
  | cons buffer buffers ih =>
    rw [flatten_cons] at h
    obtain ⟨t, ht, houtside, hfound⟩ := hs.yylex buffer.length (h.part (prefix_append ..).isInfix)
    rw [HttpScanner.scanBody, parseResponse, ht, ← hfound]
    exact ih houtside (h.part (suffix_append ..).isInfix)

end Outside

section Lockstep

variable {buffers later : List CStr} {s : Scanner} {text b : CStr} {n : ℕ} {action : HttpScanner.Action}

theorem turn_stop (h : (turn s.start text).2 = .stop) :
    s.start = .initial ∧ (turn s.start text).1 = 7 ∧ text.take 7 = cstr "</html>" := by
  rcases turn_cases s.start text with hturn | ⟨rule, hrule, hstart, hpos, hlongest, haction⟩
  · rw [hturn] at h
    cases h
  · rw [h] at haction
    rw [← hlongest]
    clear hlongest h
    generalize s.start = start at hstart
    fin_cases hrule <;> fin_cases hstart <;> cases haction
    have hword := literal_take hpos
    dsimp only at hpos ⊢
    rw [literal] at hpos hword ⊢
    split_ifs at hpos hword ⊢
    · exact ⟨rfl, rfl, hword⟩
    · exact absurd hpos (lt_irrefl 0)

/-- The front of `</html>` is skipped, byte by byte. -/
theorem skip_stop (hs : s.start = .initial) {k : ℕ} (hk : k < 7) : parseResponse s ((cstr "</html>").take k) = some s := by
  have hturn : ∀ k < 7, ∀ i < k, turn .initial (((cstr "</html>").take k).drop i) = (1, .skip) := by decide
  have hrest (n i : ℕ) (hi : i + n = k) : parseResponse s (((cstr "</html>").take k).drop i) = some s := by
    induction n generalizing i with
    | zero =>
      have hend : ((cstr "</html>").take k).length ≤ i := (length_take_le ..).trans hi.ge
      rw [drop_eq_nil_of_le hend]
      rfl
    | succ n ih =>
      rw [parseResponse_skip (hs ▸ hturn k hk i (by omega)), drop_drop]
      exact ih (i + 1) (by omega)
  exact hrest k 0 (Nat.zero_add k)

theorem scanBody_flatten_nil (h : b ++ later.flatten = []) : scanBody s (b :: later) = some s := by
  induction later generalizing b with
  | nil =>
    rw [flatten_nil, append_nil] at h
    rw [h]
    rfl
  | cons next later ih =>
    obtain ⟨rfl, hlater⟩ := append_eq_nil_iff.mp h
    exact ih hlater

theorem exists_nonempty (h : b ++ later.flatten ≠ []) :
    ∃ b' later', b' ≠ [] ∧ later' <:+ later ∧ b' ++ later'.flatten = b ++ later.flatten ∧
      ∀ s, scanBody s (b :: later) = scanBody s (b' :: later') := by
  by_cases hb : b = []
  · induction later generalizing b with
    | nil => exact absurd (by rw [hb]; rfl) h
    | cons next later ih =>
      subst hb
      by_cases hnext : next = []
      · obtain ⟨b', later', hb', hlater', hflatten, hscan⟩ := ih h hnext
        exact ⟨b', later', hb', hlater'.trans (suffix_cons ..), hflatten, hscan⟩
      · exact ⟨next, later, hnext, suffix_cons .., rfl, fun s => rfl⟩
  · exact ⟨b, later, hb, suffix_rfl, rfl, fun s => rfl⟩

/-- The cuts inside a token of the page. -/
theorem CutsKept.tolerated (h : CutsKept buffers s text) (hturn : turn s.start text = (n, action))
    (hstop : action ≠ .stop) {k : ℕ} {next : CStr} {later : List CStr} (hk : 0 < k) (hkn : k < n)
    (hsuffix : next :: later <:+ buffers) (hflatten : (next :: later).flatten = text.drop k) :
    (action = .skip ∧ ¬ Forms s.start (text.take k) next) ∨ (s.start = .comment ∧ action = .pop ∧ k + 3 ≤ n) := by
  have hkept := (h k next later hk hsuffix hflatten).2
  rw [Tolerated, hturn] at hkept
  exact hkept hstop hkn

theorem exists_crossing (hkept : CutsKept buffers s text) (hturn : turn s.start text = (n, action))
    (hstop : action ≠ .stop) (hn : n ≤ text.length) (hcut : b.length < n) (hpos : 0 < b.length)
    (hlater : later <:+ buffers) (hdrop : later.flatten = text.drop b.length) :
    ∃ t, perform action (text.take n) s = some t ∧ Crossing buffers s t text n := by
  have htwo : 2 ≤ n := by omega
  have hlen : (turn s.start text).1 = n := congrArg Prod.fst hturn
  have hact : (turn s.start text).2 = action := congrArg Prod.snd hturn
  by_cases hskip : action = .skip
  · subst hskip
    refine ⟨s, rfl, crossing_skip (hlen ▸ skipShape (hlen.symm ▸ htwo) hact) fun k next later hk hkn hsuffix hnext => ?_⟩
    exact ((hkept.tolerated hturn hstop hk hkn hsuffix hnext).resolve_right fun h => nomatch h.2.1).2
  · cases later with
    | nil =>
      have hlength := congrArg length hdrop
      rw [flatten_nil, length_nil, length_drop] at hlength
      omega
    | cons next later =>
      obtain ⟨hs, rfl, -⟩ := (hkept.tolerated hturn hstop hpos hcut hlater hdrop).resolve_left fun h => hskip h.1
      refine ⟨s.pop, rfl, crossing_closing hs hn ?_ fun k next later hk hkn hsuffix hnext => ?_⟩
      · rw [hs] at hlen hact
        exact hlen ▸ isClosing_of_pop (hlen.symm ▸ htwo) hact
      · exact ((hkept.tolerated hturn hstop hk hkn hsuffix hnext).resolve_left fun h => hskip h.1).2.2

theorem cross_token (hkept : CutsKept buffers s text) (hb : b ≠ []) (hlater : later <:+ buffers)
    (htext : b ++ later.flatten = text) (hturn : turn s.start text = (n, action)) (hstop : action ≠ .stop)
    (hcut : b.length < n) :
    ∃ t b' later', perform action (text.take n) s = some t ∧ later' <:+ buffers ∧
      b' ++ later'.flatten = text.drop n ∧ scanBody s (b :: later) = scanBody t (b' :: later') := by
  have hpos : 0 < b.length := length_pos_of_ne_nil hb
  have hn : n ≤ text.length := by
    have hle : (turn s.start text).1 ≤ text.length := turn_le s.start (by rw [← htext]; simp [hb])
    rwa [hturn] at hle
  have hdrop : later.flatten = text.drop b.length := by rw [← htext, drop_left]
  obtain ⟨t, hperform, hcrossing⟩ := exists_crossing hkept hturn hstop hn hcut hpos hlater hdrop
  obtain ⟨b', later', hlater', hflatten, hscan⟩ := hcrossing.cross hn hpos hcut hlater hdrop
  have hpiece := hcrossing.piece 0 b.length (by omega)
  rw [drop_zero, ← htext, take_left] at hpiece
  exact ⟨t, b', later', hperform, hlater', hflatten, by rw [scanBody, hpiece, Option.bind_some, hscan]⟩

theorem scanBody_stop (hkept : CutsKept buffers s text) (hb : b ≠ []) (hlater : later <:+ buffers)
    (htext : b ++ later.flatten = text) (hstop : (turn s.start text).2 = .stop) :
    (scanBody s (b :: later)).map Scanner.found = some s.found := by
  obtain ⟨hs, hlength, hword⟩ := turn_stop hstop
  have hpiece : parseResponse s b = some s := by
    by_cases hin : 7 ≤ b.length
    · have hturn : turn s.start b = turn s.start text := by
        rw [← htext] at hlength ⊢
        exact turn_cut (hlength.trans_le hin)
      rw [parseResponse_step hb, hturn, if_pos hstop]
    · have hfront : b = (cstr "</html>").take b.length := by
        rw [← hword, ← htext, take_take, Nat.min_eq_left (by omega), take_left]
      rw [hfront]
      exact skip_stop hs (by omega)
  rw [scanBody, hpiece, Option.bind_some]
  cases later with
  | nil => rfl
  | cons next later =>
    have hdrop : (next :: later).flatten = text.drop b.length := by rw [← htext, drop_left]
    refine Outside.scanBody (.inl hs) ?_
    rw [hdrop]
    exact (hkept b.length next later (length_pos_of_ne_nil hb) hlater hdrop).1 hstop

/-- The scan of the buffers takes the tokens of the page one after the other. -/
theorem scanBody_lockstep {fuel : ℕ} (hfuel : text.length ≤ fuel)
    (hkept : ∀ place ∈ places fuel s text, CutsKept buffers place.1 place.2)
    (hlater : later <:+ buffers) (htext : b ++ later.flatten = text) :
    (scanBody s (b :: later)).map Scanner.found = (parseResponse s text).map Scanner.found := by
  induction fuel generalizing s text b later with
  | zero =>
    obtain rfl := length_eq_zero_iff.mp (Nat.le_zero.mp hfuel)
    rw [scanBody_flatten_nil htext]
    rfl
  | succ fuel ih =>
    by_cases hnil : text = []
    · subst hnil
      rw [scanBody_flatten_nil htext]
      rfl
    have hhere : CutsKept buffers s text := hkept (s, text) (mem_cons_self ..)
    rw [← htext] at hnil
    obtain ⟨b, later', hb, hsuffix, hflatten, hscan⟩ := exists_nonempty hnil
    rw [htext] at hnil hflatten
    have hlater' := hsuffix.trans hlater
    rw [hscan, parseResponse_step hnil]
    by_cases hstop : (turn s.start text).2 = .stop
    · rw [if_pos hstop]
      exact scanBody_stop hhere hb hlater' hflatten hstop
    have hpos := turn_pos s.start text
    rw [places, if_neg (not_or.mpr ⟨hnil, hstop⟩), forall_mem_cons] at hkept
    replace hkept := hkept.2
    obtain ⟨n, action, hturn⟩ : ∃ n action, turn s.start text = (n, action) := ⟨_, _, rfl⟩
    rw [hturn] at hstop hpos hkept ⊢
    have hshort : (text.drop n).length ≤ fuel := by
      rw [length_drop]
      omega
    rw [if_neg hstop]
    by_cases hin : n ≤ b.length
    · have hturn' : turn s.start b = (n, action) := by
        rw [← hflatten] at hturn
        exact (turn_cut (hturn ▸ hin)).trans hturn
      have htake : b.take n = text.take n := by rw [← hflatten, take_append_of_le_length hin]
      rw [scanBody, parseResponse_step hb, hturn', if_neg hstop, htake]
      cases hperform : perform action (text.take n) s with
      | none => rfl
      | some t =>
        rw [hperform] at hkept
        exact ih hshort hkept hlater' (by rw [← drop_append_of_le_length hin, hflatten])
    · obtain ⟨t, b', later'', hperform, hsuffix, hdrop, hcross⟩ :=
        cross_token hhere hb hlater' hflatten hturn hstop (not_le.mp hin)
      rw [hperform] at hkept
      rw [hcross, hperform, Option.bind_some]
      exact ih hshort hkept hsuffix hdrop

theorem scanBody_clean (h : Clean buffers) :
    (scanBody .fresh buffers).map Scanner.found = (scanBody .fresh [buffers.flatten]).map Scanner.found := by
  have hone : scanBody .fresh [buffers.flatten] = parseResponse .fresh buffers.flatten := bind_fun_some _
  rw [hone]
  cases buffers with
  | nil => rfl
  | cons b later => exact scanBody_lockstep le_rfl h (suffix_cons b later) rfl

/-- The objects of the page in one buffer, or its overrun of `url`. -/
theorem same_objects (buffers : List CStr) (h : Clean buffers ∨ Tagless buffers.flatten) :
    (scanBody .fresh buffers).map Scanner.found = (scanBody .fresh [buffers.flatten]).map Scanner.found := by
  rcases h with hclean | htagless
  · exact scanBody_clean hclean
  · have hone : Tagless [buffers.flatten].flatten := by rwa [flatten_singleton]
    have houtside : Outside .fresh := .inl rfl
    rw [houtside.scanBody htagless, houtside.scanBody hone]

/-- Cuts between tokens and in skipped text that cannot make up a word. -/
theorem clean_of_skipped (h : ∀ place ∈ places buffers.flatten.length .fresh buffers.flatten,
      (turn place.1.start place.2).2 ≠ .stop ∧
        ∀ rest ∈ buffers.tails, place.2.length - rest.flatten.length < (turn place.1.start place.2).1 →
          rest.flatten.length < place.2.length → (turn place.1.start place.2).2 = .skip ∧
            place.1.start ∈ [Start.comment, Start.script, Start.img]) : Clean buffers := by
  intro place hplace k next later hk hsuffix hflatten
  obtain ⟨hstop, hcuts⟩ := h place hplace
  refine ⟨fun h => absurd h hstop, fun _ hcut => .inl ?_⟩
  have hlength := congrArg length hflatten
  rw [length_drop] at hlength
  have hk' : k ≤ place.2.length := by
    by_cases hnil : place.2 = []
    · rw [hnil, turn_nil] at hcut
      omega
    · exact hcut.le.trans (turn_le _ hnil)
  obtain ⟨hskip, hstart⟩ := hcuts (next :: later) ((mem_tails _ _).mpr hsuffix) (by omega) (by omega)
  refine ⟨hskip, fun hforms => ?_⟩
  generalize place.1.start = start at hstart hforms
  fin_cases hstart <;> exact hforms

theorem page_cut_between_words :
    (scanBody .fresh [cstr "<p><img al", cstr "t='b' src='x'><script ", cstr "src='y'></script>"]).map Scanner.found =
      some [cstr "x", cstr "y"] :=
  (same_objects [cstr "<p><img al", cstr "t='b' src='x'><script ", cstr "src='y'></script>"]
    (.inl (clean_of_skipped (by decide +kernel)))).trans (by decide +kernel)

theorem image_cut_in_two : scanBody .fresh [cstr "<img src=\"x\">"] = some ⟨.initial, [], [], [cstr "x"]⟩ ∧
      scanBody .fresh [cstr "<i", cstr "mg src=\"x\">"] = some .fresh := by
  decide

end Lockstep

end Amplet.HttpCuts
