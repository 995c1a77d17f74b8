import Mathlib.Data.Fintype.EquivFin
import Mathlib.Logic.Relation
import Mathlib.Order.WellFounded
import Mathlib.Data.Set.Finite.Basic

/-!
# Depth-first walks over a graph

Inner nodes have a list of children, the others put something out. A walk goes through
the children of an inner node before the nodes after it, with no memory of where it has
been. It comes to an end exactly when no cycle is below its nodes.
-/

namespace Amplet.DepthFirstWalk
open List Relation

variable {α β : Type*}

inductive Walk (children : α → Option (List α)) (out : α → List β) : List α → List β → Prop
  | nil : Walk children out [] []
  | leaf {i : α} {is : List α} {l : List β} (h : children i = none) (rest : Walk children out is l) :
      Walk children out (i :: is) (out i ++ l)
  | inner {i : α} {js is : List α} {l : List β} (h : children i = some js)
      (rest : Walk children out (js ++ is) l) : Walk children out (i :: is) l

def Child (children : α → Option (List α)) (i j : α) : Prop := ∃ js, children i = some js ∧ j ∈ js

def Acyclic (children : α → Option (List α)) (i : α) : Prop :=
  ∀ j, ReflTransGen (Child children) i j → ¬TransGen (Child children) j j

variable {children : α → Option (List α)} {out : α → List β} {i j : α} {is js : List α}
  {l l' : List β}

theorem Walk.unique (h : Walk children out is l) (h' : Walk children out is l') : l = l' := by
  induction h generalizing l' with
  | nil =>
    cases h'
    rfl
  | leaf hnone rest ih =>
    cases h' with
    | leaf _ rest' => rw [ih rest']
    | inner hsome _ => cases hnone.symm.trans hsome
  | inner hsome rest ih =>
    cases h' with
    | leaf hnone _ => cases hnone.symm.trans hsome
    | inner hsome' rest' =>
      obtain rfl := Option.some.inj (hsome.symm.trans hsome')
      exact ih rest'

theorem Walk.append (h : Walk children out is l) (h' : Walk children out js l') : Walk children out (is ++ js) (l ++ l') := by
  induction h with
  | nil => exact h'
  | leaf hnone _ ih =>
    rw [cons_append, append_assoc]
    exact .leaf hnone ih
  | inner hsome _ ih =>
    rw [append_assoc] at ih
    exact .inner hsome ih

theorem Acyclic.child (h : Acyclic children i) (hchild : Child children i j) : Acyclic children j :=
  fun k hk => h k (.head hchild hk)

theorem acyclic_of_children (h : ∀ j, Child children i j → Acyclic children j) :
    Acyclic children i := by
  intro k hk hcycle
  rcases hk.cases_head with rfl | ⟨j, hij, hjk⟩
  · -- a cycle through the node itself is also below its child on the cycle
    obtain ⟨j, hij, hji⟩ := TransGen.head'_iff.1 hcycle
    exact h j hij i hji hcycle
  · exact h j hij k hjk hcycle

theorem Walk.acyclic (h : Walk children out is l) : ∀ i ∈ is, Acyclic children i := by
  induction h with
  | nil => exact fun i hi => absurd hi not_mem_nil
  | @leaf i is l hnone _ ih =>
    refine forall_mem_cons.2 ⟨acyclic_of_children fun j hchild => ?_, ih⟩
    obtain ⟨js, hsome, -⟩ := hchild
    cases hnone.symm.trans hsome
  | @inner i js is l hsome _ ih =>
    refine forall_mem_cons.2 ⟨acyclic_of_children fun j hchild => ?_, fun k hk =>
      ih k (mem_append_right _ hk)⟩
    obtain ⟨js', hsome', hj⟩ := hchild
    obtain rfl := Option.some.inj (hsome.symm.trans hsome')
    exact ih j (mem_append_left _ hj)

theorem Acyclic.acc [Finite α] (h : Acyclic children i) : Acc (fun j i => Child children i j) i := by
  let below (a b : {j // ReflTransGen (Child children) i j}) : Prop :=
    TransGen (Child children) b.1 a.1
  have htrans : IsTrans _ below := ⟨fun a b c hab hbc => hbc.trans hab⟩
  have hirrefl : Std.Irrefl below := ⟨fun a => h a.1 a.2⟩
  have hwf : WellFounded below := Finite.wellFounded_of_trans_of_irrefl below
  have hacc (a : {j // ReflTransGen (Child children) i j}) : Acc (fun j i => Child children i j) a.1 := by
    induction a using hwf.induction with
    | _ a ih => exact .intro a.1 fun k hk => ih ⟨k, a.2.tail hk⟩ (.single hk)
  exact hacc ⟨i, .refl⟩

theorem exists_walk_of_children (h : ∀ j ∈ js, ∃ l, Walk children out [j] l) : ∃ l, Walk children out js l := by
  induction js with
  | nil => exact ⟨[], .nil⟩
  | cons j js ih =>
    obtain ⟨l, hl⟩ := h j (mem_cons_self ..)
    obtain ⟨l', hl'⟩ := ih fun k hk => h k (mem_cons_of_mem _ hk)
    exact ⟨l ++ l', hl.append hl'⟩

theorem Acyclic.exists_walk [Finite α] (h : Acyclic children i) (out : α → List β) : ∃ l, Walk children out [i] l := by
  induction h.acc with
  | intro i _ ih =>
    cases hchildren : children i with
    | none => exact ⟨out i ++ [], .leaf hchildren .nil⟩
    | some js =>
      obtain ⟨l, hl⟩ := exists_walk_of_children fun j hj =>
        ih j ⟨js, hchildren, hj⟩ (h.child ⟨js, hchildren, hj⟩)
      refine ⟨l, .inner hchildren ?_⟩
      rwa [append_nil]

end Amplet.DepthFirstWalk
