import Mathlib.Data.List.Nodup
import Mathlib.Logic.Function.Basic
import Mathlib.Tactic

/-!
# Singly linked lists in memory

Nodes are pointers of any type, and `next` is the field that links them; `none`
is the null pointer. A list in memory is the sequence of nodes that is reached
from its head.
-/

namespace Amplet.LinkedList
open List

variable {P : Type*}

def Chain (next : P → Option P) : Option P → List P → Prop
  | head, [] => head = none
  | head, p :: l => head = some p ∧ Chain next (next p) l

section

variable {next next' : P → Option P} {head : Option P} {p q : P} {l l' : List P}

@[simp] theorem chain_nil : Chain next head [] ↔ head = none := Iff.rfl

section

variable (h : Chain next head l)
include h

theorem Chain.head_eq : head = l.head? := by
  cases l with
  | nil => exact h
  | cons p l => exact h.1

theorem Chain.eq_nil_iff : head = none ↔ l = [] := by
  rw [h.head_eq, head?_eq_none_iff]

theorem Chain.congr (hsame : ∀ p ∈ l, next p = next' p) : Chain next' head l := by
  induction l generalizing head with
  | nil => exact h
  | cons p l ih =>
    refine ⟨h.1, ?_⟩
    rw [← hsame p (mem_cons_self ..)]
    exact ih h.2 fun q hq => hsame q (mem_cons_of_mem _ hq)

theorem Chain.unique (h' : Chain next head l') : l = l' := by
  induction l generalizing head l' with
  | nil =>
    cases l' with
    | nil => rfl
    | cons q l' => exact absurd (h.symm.trans h'.1) (by simp)
  | cons p l ih =>
    cases l' with
    | nil => exact absurd (h.1.symm.trans h') (by simp)
    | cons q l' =>
      obtain rfl := Option.some.inj (h.1.symm.trans h'.1)
      rw [ih h.2 h'.2]

end

theorem Chain.next_eq (h : Chain next head (l ++ p :: l')) : next p = l'.head? := by
  induction l generalizing head with
  | nil => exact h.2.head_eq
  | cons q l ih => exact ih h.2

structure Queue (next : P → Option P) (head last : Option P) (l : List P) : Prop where
  chain : Chain next head l
  last_eq : last = l.getLast?

theorem Queue.singleton (hp : next p = none) : Queue next (some p) (some p) [p] :=
  ⟨⟨rfl, hp⟩, rfl⟩

variable {last : Option P}

theorem Queue.dequeue (h : Queue next head last (p :: l)) : Queue next (next p) (if (next p).isNone then none else last) l := by
  have hnext : next p = l.head? := h.chain.next_eq (l := [])
  refine ⟨h.chain.2, ?_⟩
  rw [hnext, h.last_eq]
  cases l <;> simp

variable [DecidableEq P]

theorem Chain.update (h : Chain next head l) (hp : p ∉ l) (link : Option P) : Chain (Function.update next p link) head l := by
  refine h.congr fun q hq => ?_
  have hqp : q ≠ p := ne_of_mem_of_not_mem hq hp
  rw [Function.update_of_ne hqp]

theorem Chain.push_front (h : Chain next head l) (hp : p ∉ l) : Chain (Function.update next p head) (some p) (p :: l) := by
  refine ⟨rfl, ?_⟩
  rw [Function.update_self]
  exact h.update hp head

theorem Chain.push_back (h : Chain next head (l ++ [q])) (hp : next p = none) (hq : q ∉ l) (hpl : p ∉ l) (hpq : p ≠ q) :
    Chain (Function.update next q (some p)) head (l ++ [q, p]) := by
  induction l generalizing head with
  | nil =>
    refine ⟨h.1, ?_⟩
    rw [Function.update_self]
    refine ⟨rfl, ?_⟩
    rw [Function.update_of_ne hpq]
    exact hp
  | cons r l ih =>
    simp only [mem_cons, not_or] at hq hpl
    refine ⟨h.1, ?_⟩
    rw [Function.update_of_ne (Ne.symm hq.1)]
    exact ih h.2 hq.2 hpl.2

theorem Chain.unlink {next : P → Option P} {head : Option P} {q p : P} {l l' : List P}
    (h : Chain next head (l ++ q :: p :: l')) (hq : q ∉ l) (hq' : q ∉ l') :
    Chain (Function.update next q (next p)) head (l ++ q :: l') := by
  induction l generalizing head with
  | nil =>
    refine ⟨h.1, ?_⟩
    rw [Function.update_self]
    exact h.2.2.update hq' _
  | cons r l ih =>
    simp only [mem_cons, not_or] at hq
    refine ⟨h.1, ?_⟩
    rw [Function.update_of_ne (Ne.symm hq.1)]
    exact ih h.2 hq.2

theorem Queue.update (h : Queue next head last l) (hp : p ∉ l) (link : Option P) :
    Queue (Function.update next p link) head last l :=
  ⟨h.chain.update hp link, h.last_eq⟩

theorem Queue.append_cases (h : Queue next head last l) (hp : next p = none) (hpl : p ∉ l) (hnodup : l.Nodup) :
    (l = [] ∧ head.isNone = true) ∨ ∃ q ∈ l, l ≠ [] ∧ head.isNone = false ∧ last = some q ∧
      Queue (Function.update next q (some p)) head (some p) (l ++ [p]) := by
  obtain ⟨hchain, hlast⟩ := h
  rcases eq_nil_or_concat l with rfl | ⟨l, q, rfl⟩
  · exact .inl ⟨rfl, by rw [hchain.head_eq]; rfl⟩
  · rw [concat_eq_append] at *
    have hq : q ∉ l := by grind
    have hpq : p ≠ q := by grind
    have hpush := hchain.push_back hp hq (by grind) hpq
    refine .inr ⟨q, by simp, by simp, ?_, by simpa using hlast, by simpa using hpush, by simp⟩
    rw [hchain.head_eq]
    cases l <;> rfl

theorem Queue.unlink (h : Queue next head last (l ++ q :: p :: l')) (hnodup : (l ++ q :: p :: l').Nodup) :
    Queue (Function.update next q (next p)) head (if (next p).isNone then some q else last) (l ++ q :: l') := by
  refine ⟨h.chain.unlink (by grind) (by grind), ?_⟩
  have hchain : Chain next head ((l ++ [q]) ++ p :: l') := by simpa using h.chain
  have hnext : next p = l'.head? := hchain.next_eq
  rw [hnext, h.last_eq]
  cases l' <;> simp [getLast?_append]

end

end Amplet.LinkedList
