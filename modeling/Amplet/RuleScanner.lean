import Amplet.Delimited
import Mathlib.Tactic.SplitIfs

/-!
# Scanners of ordered rules

A rule names its start conditions, the length of the longest text it matches at the
front of the input (zero when it does not match) and its action. A scanner takes the
rule with the longest match, the earlier one of two.
-/

namespace Amplet.RuleScanner
open List

structure Rule (σ β α : Type*) where
  starts : List σ
  longest : List β → ℕ
  action : α

section Choice

variable {σ β α : Type*} {action : α}

def best (text : List β) : List (Rule σ β α) → Option (ℕ × α)
  | [] => none
  | rule :: rules =>
    match best text rules with
    | none => if 0 < rule.longest text then some (rule.longest text, rule.action) else none
    | some (n, action) =>
      if n ≤ rule.longest text then some (rule.longest text, rule.action)
      else some (n, action)

def active [DecidableEq σ] (start : σ) (rules : List (Rule σ β α)) : List (Rule σ β α) :=
  rules.filter fun rule => decide (start ∈ rule.starts)

theorem best_none {text : List β} {rules : List (Rule σ β α)} (h : best text rules = none) :
    ∀ rule ∈ rules, rule.longest text = 0 := by
  induction rules with
  | nil => exact fun _ hmem => absurd hmem not_mem_nil
  | cons first rules ih =>
    rw [best] at h
    split at h
    · rename_i hrest
      split_ifs at h with hlen
      intro rule hmem
      rcases mem_cons.1 hmem with rfl | hmem
      · omega
      · exact ih hrest rule hmem
    · split_ifs at h

theorem best_some {text : List β} {rules : List (Rule σ β α)} {n : ℕ} (h : best text rules = some (n, action)) :
    (∃ rule ∈ rules, rule.longest text = n ∧ rule.action = action) ∧ 0 < n ∧ ∀ rule ∈ rules, rule.longest text ≤ n := by
  induction rules generalizing n action with
  | nil => exact absurd h (by simp [best])
  | cons first rules ih =>
    rw [best] at h
    split at h
    · rename_i hrest
      split_ifs at h with hlen
      cases h
      refine ⟨⟨first, mem_cons_self, rfl, rfl⟩, hlen, fun rule hmem => ?_⟩
      rcases mem_cons.1 hmem with rfl | hmem
      · exact le_rfl
      · exact (best_none hrest rule hmem).trans_le (Nat.zero_le _)
    · rename_i m other hrest
      obtain ⟨⟨found, hfound, hlonger, haction⟩, hpos, hmost⟩ := ih hrest
      split_ifs at h with hlen
      · cases h
        refine ⟨⟨first, mem_cons_self, rfl, rfl⟩, by omega, fun rule hmem => ?_⟩
        rcases mem_cons.1 hmem with rfl | hmem
        · exact le_rfl
        · exact (hmost rule hmem).trans hlen
      · cases h
        refine ⟨⟨found, mem_cons_of_mem _ hfound, hlonger, haction⟩, hpos, fun rule hmem => ?_⟩
        rcases mem_cons.1 hmem with rfl | hmem
        · omega
        · exact hmost rule hmem

theorem best_congr {text text' : List β} {rules : List (Rule σ β α)}
    (h : ∀ rule ∈ rules, rule.longest text = rule.longest text') : best text rules = best text' rules := by
  induction rules with
  | nil => rfl
  | cons rule rules ih =>
    rw [forall_mem_cons] at h
    rw [best, best, ih h.2, h.1]

theorem best_eq {text : List β} {rules : List (Rule σ β α)} {n : ℕ} (hpos : 0 < n)
    (hmost : ∀ rule ∈ rules, rule.longest text ≤ n ∧ (rule.longest text = n → rule.action = action))
    (hfound : ∃ rule ∈ rules, rule.longest text = n) : best text rules = some (n, action) := by
  obtain ⟨found, hfound, hn⟩ := hfound
  cases hbest : best text rules with
  | none =>
    rw [best_none hbest found hfound] at hn
    omega
  | some next =>
    obtain ⟨m, other⟩ := next
    obtain ⟨⟨rule, hrule, rfl, rfl⟩, -, hall⟩ := best_some hbest
    obtain ⟨hle, haction⟩ := hmost rule hrule
    obtain rfl : rule.longest text = n := le_antisymm hle (hn ▸ hall found hfound)
    rw [haction rfl]

/-- The match is inside the text, and the text behind it does not count. -/
structure Local (longest : List β → ℕ) : Prop where
  le : ∀ text, longest text ≤ text.length
  cut : ∀ text rest, longest (text ++ rest) ≤ text.length → longest text = longest (text ++ rest)

theorem best_cut {rules : List (Rule σ β α)} (hlocal : ∀ rule ∈ rules, Local rule.longest) {text rest : List β}
    (h : ∀ rule ∈ rules, rule.longest (text ++ rest) ≤ text.length) :
    best text rules = best (text ++ rest) rules :=
  best_congr fun rule hrule => (hlocal rule hrule).cut text rest (h rule hrule)

/-- Matches that are told by what they match. -/
theorem Local.of_words {longest : List β → ℕ} {P : List β → Prop}
    (htake : ∀ text, 0 < longest text → P (text.take (longest text)))
    (hword : ∀ word rest, P word → longest (word ++ rest) = word.length) : Local longest := by
  have hle : ∀ text, longest text ≤ text.length := by
    intro text
    rcases Nat.eq_zero_or_pos (longest text) with hzero | hpos
    · omega
    · have hlength := hword _ (text.drop (longest text)) (htake text hpos)
      rw [take_append_drop, length_take] at hlength
      omega
  refine ⟨hle, fun text rest hcut => ?_⟩
  rcases Nat.eq_zero_or_pos (longest text) with hzero | hpos
  · rcases Nat.eq_zero_or_pos (longest (text ++ rest)) with hnone | hsome
    · omega
    · have hmatch := htake _ hsome
      rw [take_append_of_le_length hcut] at hmatch
      have hlength := hword _ (text.drop (longest (text ++ rest))) hmatch
      rw [take_append_drop, length_take] at hlength
      omega
  · have hlength := hword _ (text.drop (longest text) ++ rest) (htake text hpos)
    rw [← append_assoc, take_append_drop, length_take] at hlength
    have := hle text
    omega

end Choice

section Patterns

variable {β : Type*}

def run (p : β → Bool) (text : List β) : ℕ := (text.takeWhile p).length

theorem run_take (p : β → Bool) (text : List β) : ∀ b ∈ text.take (run p text), p b = true := by
  intro b hb
  have htake : text.take (run p text) = text.takeWhile p :=
    (prefix_iff_eq_take.1 (List.takeWhile_prefix p)).symm
  rw [htake] at hb
  exact mem_takeWhile_imp hb

theorem run_append {p : β → Bool} {front rest : List β} (hfront : ∀ b ∈ front, p b = true)
    (hrest : ∀ b ∈ rest.head?, p b = false) : run p (front ++ rest) = front.length := by
  rw [run, (Delimited.takeWhile_append_eq hfront hrest).1]

theorem run_local (p : β → Bool) : Local (run p) := by
  refine ⟨fun text => (List.takeWhile_prefix p).length_le, fun text rest h => ?_⟩
  rw [run, takeWhile_append] at h
  rw [run, run, takeWhile_append]
  split_ifs at h ⊢ with hall
  · rw [length_append] at h ⊢
    omega
  · rfl

def single (p : β → Bool) : List β → ℕ
  | [] => 0
  | c :: _ => if p c then 1 else 0

theorem single_of_not {p : β → Bool} {c : β} (h : p c = false) (text : List β) : single p (c :: text) = 0 := by
  rw [single, h]
  rfl

theorem single_local (p : β → Bool) : Local (single p) := by
  refine ⟨fun text => ?_, fun text rest h => ?_⟩
  · cases text with
    | nil => exact le_rfl
    | cons c text =>
      rw [single]
      split_ifs <;> simp
  · cases text with
    | nil => exact (Nat.le_zero.mp h).symm
    | cons c text => rfl

theorem Local.max {f g : List β → ℕ} (hf : Local f) (hg : Local g) : Local fun text => Nat.max (f text) (g text) :=
  ⟨fun text => Nat.max_le.mpr ⟨hf.le text, hg.le text⟩, fun text rest h => by
    obtain ⟨hfirst, hsecond⟩ := Nat.max_le.mp h
    rw [hf.cut text rest hfirst, hg.cut text rest hsecond]⟩

variable [DecidableEq β]

def literal (word text : List β) : ℕ := if word.isPrefixOf text then word.length else 0

theorem literal_take {word text : List β} (h : 0 < literal word text) : text.take (literal word text) = word := by
  unfold literal at h ⊢
  split_ifs at h ⊢ with hword
  · exact (prefix_iff_eq_take.1 (List.isPrefixOf_iff_prefix.1 hword)).symm
  · exact absurd h (lt_irrefl 0)

theorem literal_append (word rest : List β) : literal word (word ++ rest) = word.length := by
  rw [literal, if_pos (List.isPrefixOf_iff_prefix.mpr (prefix_append ..))]

theorem literal_of_ne {b c : β} {word : List β} (hword : word.head? = some c) (h : b ≠ c) (text : List β) :
    literal word (b :: text) = 0 := by
  cases word with
  | nil => cases hword
  | cons d word =>
    cases hword
    simp [literal, h.symm]

/-- The word, a run of bytes and the byte behind it. -/
def enclosed (word : List β) (p : β → Bool) (P : ℕ → List β → Prop) [∀ n, DecidablePred (P n)] (last : β) (text : List β) : ℕ :=
  let n := run p (text.drop word.length)
  if word.isPrefixOf text ∧ P n ((text.drop word.length).take n) ∧
    (text.drop (n + word.length)).head? = some last then n + word.length + 1 else 0

section Enclosed

variable {p : β → Bool} {P : ℕ → List β → Prop} [∀ n, DecidablePred (P n)] {last : β}

theorem enclosed_take {word text : List β} (h : 0 < enclosed word p P last text) : ∃ value,
    text.take (enclosed word p P last text) = word ++ (value ++ [last]) ∧ (∀ b ∈ value, p b = true) ∧ P value.length value := by
  unfold enclosed at h ⊢
  dsimp only at h ⊢
  split_ifs at h ⊢ with hword
  · obtain ⟨hword, hok, hlast⟩ := hword
    obtain ⟨rest, rfl⟩ := isPrefixOf_iff_prefix.mp hword
    rw [Nat.add_comm, ← drop_drop, drop_left] at hlast
    rw [drop_left] at hok ⊢
    refine ⟨rest.take (run p rest), ?_, run_take p rest, ?_⟩
    · rw [Nat.add_right_comm, Nat.add_comm, take_length_add_append, take_add, take_one, hlast]
      rfl
    · rwa [length_take_of_le ((run_local p).le rest)]
  · exact absurd h (lt_irrefl 0)

theorem enclosed_local (word : List β) (hlast : p last = false) : Local (enclosed word p P last) := by
  refine .of_words (P := fun token => ∃ value, token = word ++ (value ++ [last]) ∧ (∀ b ∈ value, p b = true) ∧
    P value.length value) (fun _ h => enclosed_take h) ?_
  rintro _ rest ⟨value, rfl, hvalue, hok⟩
  have htext : word ++ (value ++ [last]) ++ rest = word ++ (value ++ last :: rest) := by simp
  have hrun : run p (value ++ last :: rest) = value.length := run_append hvalue (by simpa using hlast)
  have hword : word.isPrefixOf (word ++ (value ++ last :: rest)) :=
    isPrefixOf_iff_prefix.mpr (prefix_append ..)
  have hbehind : (word ++ (value ++ last :: rest)).drop (value.length + word.length) = last :: rest := by
    rw [Nat.add_comm, ← drop_drop, drop_left, drop_left]
  rw [htext, enclosed, drop_left, hrun, hbehind, take_left, if_pos ⟨hword, hok, rfl⟩]
  simp only [length_append, length_singleton]
  omega

end Enclosed

theorem literal_local (word : List β) : Local (literal word) := by
  refine .of_words (P := (· = word)) (fun text h => literal_take h) ?_
  rintro found rest rfl
  exact literal_append found rest

def headed (b : β) (p : β → Bool) : List β → ℕ
  | [] => 0
  | c :: text => if c = b then run p text + 1 else 0

def pair (b : β) (p : β → Bool) : List β → ℕ
  | c :: d :: _ => if c = b ∧ p d then 2 else 0
  | _ => 0

theorem headed_of_ne {b c : β} (h : c ≠ b) (p : β → Bool) (text : List β) : headed b p (c :: text) = 0 := by
  rw [headed, if_neg h]

theorem pair_of_ne {b c : β} (h : c ≠ b) (p : β → Bool) (text : List β) : pair b p (c :: text) = 0 := by
  cases text with
  | nil => rfl
  | cons d text => rw [pair, if_neg fun hboth => h hboth.1]

theorem headed_local (b : β) (p : β → Bool) : Local (headed b p) := by
  refine ⟨fun text => ?_, fun text rest h => ?_⟩
  · cases text with
    | nil => exact le_rfl
    | cons c text =>
      have hle := (run_local p).le text
      rw [headed, length_cons]
      split_ifs <;> omega
  · cases text with
    | nil => exact (Nat.le_zero.mp h).symm
    | cons c text =>
      rw [cons_append, headed, length_cons] at h
      rw [cons_append, headed, headed]
      split_ifs at h ⊢
      · rw [(run_local p).cut text rest (by omega)]
      · rfl

/-- A match of more than the first byte, up to where the run ends. -/
theorem exists_of_headed {b : β} {p : β → Bool} {text : List β} (h : 0 < headed b p text) :
    ∃ inside rest, text = b :: (inside ++ rest) ∧ headed b p text = inside.length + 1 ∧
      (∀ c ∈ inside, p c = true) ∧ ∀ c ∈ rest.head?, p c = false := by
  cases text with
  | nil => exact absurd h (lt_irrefl 0)
  | cons c text =>
    obtain ⟨inside, rest, rfl, hinside, hrest⟩ := Delimited.exists_split_on (fun c => !p c) text
    simp only [Bool.not_eq_false'] at hinside
    simp only [Bool.not_eq_true'] at hrest
    rw [headed] at h
    split_ifs at h with hc
    · subst hc
      exact ⟨inside, rest, rfl, by rw [headed, if_pos rfl, run_append hinside hrest], hinside, hrest⟩
    · exact absurd h (lt_irrefl 0)

theorem pair_local (b : β) (p : β → Bool) : Local (pair b p) := by
  refine ⟨fun text => ?_, fun text rest h => ?_⟩
  · match text with
    | [] | [_] => exact Nat.zero_le _
    | c :: d :: text =>
      rw [pair]
      split_ifs <;> simp
  · match text, rest with
    | [], _ => exact (Nat.le_zero.mp h).symm
    | [c], [] => rfl
    | [c], d :: rest =>
      rw [singleton_append, pair] at h ⊢
      split_ifs at h ⊢
      · exact absurd h (by simp)
      · rfl
    | c :: d :: text, _ => rfl

end Patterns

end Amplet.RuleScanner
