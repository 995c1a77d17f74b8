import Mathlib.Data.Nat.Find
import Mathlib.Tactic

/-!
# Tries of bit strings that share a prefix

Keys of any type are read bit by bit. Two keys that agree on their first `p`
bits are the same entry of the map a trie stands for. A branch keeps the number
of bits its keys share, and one of them to compare with.
-/

namespace Amplet.PrefixTrie
open List

variable {K V : Type*} (bit : K → ℕ → Bool)

def Agree (n : ℕ) (a b : K) : Prop := ∀ i < n, bit a i = bit b i

instance (n : ℕ) (a b : K) : Decidable (Agree bit n a b) :=
  inferInstanceAs (Decidable (∀ i < n, bit a i = bit b i))

variable {bit}

variable {n : ℕ} {a b : K}

theorem Agree.symm (h : Agree bit n a b) : Agree bit n b a :=
  fun i hi => (h i hi).symm

theorem Agree.trans {c : K} (h : Agree bit n a b) (h' : Agree bit n b c) :
    Agree bit n a c := fun i hi => (h i hi).trans (h' i hi)

theorem Agree.mono {m : ℕ} (h : Agree bit n a b) (hmn : m ≤ n) : Agree bit m a b :=
  fun i hi => h i (hi.trans_le hmn)

theorem Agree.congr_left (h : Agree bit n a b) (c : K) : Agree bit n a c ↔ Agree bit n b c := ⟨h.symm.trans, h.trans⟩

theorem agree_succ : Agree bit (n + 1) a b ↔ Agree bit n a b ∧ bit a n = bit b n :=
  Nat.forall_lt_succ_right

variable (bit) in
def common (n : ℕ) (a b : K) : ℕ := Nat.findGreatest (fun m => Agree bit m a b) n

theorem common_le (n : ℕ) (a b : K) : common bit n a b ≤ n := Nat.findGreatest_le n

theorem agree_common (n : ℕ) (a b : K) : Agree bit (common bit n a b) a b :=
  Nat.findGreatest_spec (P := fun m => Agree bit m a b) (Nat.zero_le n) fun _ hi => by omega

theorem bit_common_ne (h : common bit n a b < n) : bit a (common bit n a b) ≠ bit b (common bit n a b) := by
  intro heq
  exact Nat.findGreatest_is_greatest (P := fun m => Agree bit m a b) (Nat.lt_succ_self _) h
    (agree_succ.mpr ⟨agree_common n a b, heq⟩)

theorem le_common {m : ℕ} (hm : m ≤ n) (h : Agree bit m a b) : m ≤ common bit n a b := Nat.le_findGreatest hm h

theorem common_eq {m : ℕ} (hm : m ≤ n) (hagree : Agree bit m a b) (hend : m = n ∨ bit a m ≠ bit b m) : common bit n a b = m := by
  refine le_antisymm (not_lt.mp fun hlt => ?_) (le_common hm hagree)
  rcases hend with rfl | hne
  · exact absurd (common_le m a b) (not_le.mpr hlt)
  · exact hne (agree_common n a b m hlt)

theorem common_lt (h : ¬ Agree bit n a b) : common bit n a b < n := by
  refine lt_of_le_of_ne (common_le n a b) fun heq => h ?_
  have hagree : Agree bit (common bit n a b) a b := agree_common n a b
  rwa [heq] at hagree

theorem agree_of_common (h : ¬ common bit n a b < n) : Agree bit n a b := by
  by_contra hne
  exact h (common_lt hne)

inductive Trie (K V : Type*)
  | leaf (key : K) (value : V)
  | branch (shared : ℕ) (key : K) (left right : Trie K V)

namespace Trie
open List

def key : Trie K V → K
  | leaf key _ => key
  | branch _ key _ _ => key

def All (P : K → Prop) : Trie K V → Prop
  | leaf key _ => P key
  | branch _ key left right => P key ∧ left.All P ∧ right.All P

variable (bit) in
/-- The keys below a branch share its first bits and are parted by the next. -/
def Valid (p : ℕ) : Trie K V → Prop
  | leaf _ _ => True
  | branch shared key left right =>
    shared < p ∧ left.Valid p ∧ right.Valid p ∧
      left.All (fun k => Agree bit shared key k ∧ bit k shared = false) ∧
      right.All (fun k => Agree bit shared key k ∧ bit k shared = true)

variable (bit) in
def lookup (p : ℕ) : Trie K V → K → Option V
  | leaf key value, k => if Agree bit p key k then some value else none
  | branch shared key left right, k =>
    if Agree bit shared key k then
      if bit k shared then right.lookup p k else left.lookup p k
    else none

variable (bit) in
def join (shared : ℕ) (key : K) (value : V) (old : Trie K V) : Trie K V :=
  if bit key shared then branch shared key old (leaf key value)
  else branch shared key (leaf key value) old

variable (bit) in
def insert (p : ℕ) (k : K) (v : V) : Trie K V → Trie K V
  | leaf key value =>
    if Agree bit p key k then leaf key v
    else join bit (common bit p key k) k v (leaf key value)
  | branch shared key left right =>
    if common bit shared key k < shared then
      join bit (common bit shared key k) k v (branch shared key left right)
    else if bit k shared then branch shared key left (right.insert p k v)
    else branch shared key (left.insert p k v) right

def leaves : Trie K V → List (K × V)
  | leaf key value => [(key, value)]
  | branch _ _ left right => left.leaves ++ right.leaves

variable {P : K → Prop} {t : Trie K V}

theorem All.imp {Q : K → Prop} (h : ∀ k, P k → Q k) (ht : t.All P) : t.All Q := by
  induction t with
  | leaf key value => exact h key ht
  | branch shared key left right ihl ihr => exact ⟨h key ht.1, ihl ht.2.1, ihr ht.2.2⟩

theorem All.key (h : t.All P) : P t.key := by
  cases t with
  | leaf => exact h
  | branch => exact h.1

theorem all_join {shared : ℕ} {key : K} {value : V} {old : Trie K V} (hk : P key)
    (hold : old.All P) : (join bit shared key value old).All P := by
  rw [join]
  split
  · exact ⟨hk, hold, hk⟩
  · exact ⟨hk, hk, hold⟩

variable {p : ℕ}

theorem all_insert {k : K} {v : V} (hk : P k) (ht : t.All P) : (t.insert bit p k v).All P := by
  induction t with
  | leaf key value =>
    rw [insert]
    split
    · exact ht
    · exact all_join hk ht
  | branch shared key left right ihl ihr =>
    rw [insert]
    split_ifs
    · exact all_join hk ht
    · exact ⟨ht.1, ht.2.1, ihr ht.2.2⟩
    · exact ⟨ht.1, ihl ht.2.1, ht.2.2⟩

theorem valid_join {shared : ℕ} {key : K} {value : V} {old : Trie K V} (hp : shared < p) (hold : old.Valid bit p)
    (hkeys : old.All fun k => Agree bit shared key k ∧ bit k shared ≠ bit key shared) :
    (join bit shared key value old).Valid bit p := by
  have hself : Agree bit shared key key := fun _ _ => rfl
  rw [join]
  split_ifs with hbit
  · exact ⟨hp, hold, trivial, hkeys.imp fun k hk => ⟨hk.1, by simpa [hbit] using hk.2⟩, hself, hbit⟩
  · rw [Bool.not_eq_true] at hbit
    exact ⟨hp, trivial, hold, ⟨hself, hbit⟩, hkeys.imp fun k hk => ⟨hk.1, by simpa [hbit] using hk.2⟩⟩

theorem parted_of_common {key k k' : K} (h : common bit n key k < n) (hk : Agree bit n key k') :
    Agree bit (common bit n key k) k k' ∧ bit k' (common bit n key k) ≠ bit k (common bit n key k) := by
  refine ⟨(agree_common n key k).symm.trans (hk.mono h.le), ?_⟩
  rw [← hk _ h]
  exact bit_common_ne h

theorem Valid.all_agree {shared : ℕ} {key : K} {left right : Trie K V} (h : (branch shared key left right).Valid bit p) :
    (branch shared key left right).All (Agree bit shared key) :=
  ⟨fun _ _ => rfl, h.2.2.2.1.imp fun _ hk => hk.1, h.2.2.2.2.imp fun _ hk => hk.1⟩

theorem valid_insert {k : K} {v : V} (ht : t.Valid bit p) : (t.insert bit p k v).Valid bit p := by
  induction t with
  | leaf key value =>
    rw [insert]
    split_ifs with hagree
    · trivial
    · exact valid_join (common_lt hagree) trivial (parted_of_common (common_lt hagree) fun _ _ => rfl)
  | branch shared key left right ihl ihr =>
    rw [insert]
    split_ifs with hcommon hbit
    · exact valid_join (hcommon.trans ht.1) ht (ht.all_agree.imp fun k' hk' => parted_of_common hcommon hk')
    · exact ⟨ht.1, ht.2.1, ihr ht.2.2.1, ht.2.2.2.1, all_insert ⟨agree_of_common hcommon, hbit⟩ ht.2.2.2.2⟩
    · exact ⟨ht.1, ihl ht.2.1, ht.2.2.1, all_insert ⟨agree_of_common hcommon, by simpa using hbit⟩ ht.2.2.2.1, ht.2.2.2.2⟩

theorem lookup_eq_none {k : K} (h : t.All fun key => ¬ Agree bit p key k) : t.lookup bit p k = none := by
  induction t with
  | leaf key value => exact if_neg h
  | branch shared key left right ihl ihr =>
    rw [lookup, ihl h.2.1, ihr h.2.2, ite_self, ite_self]

theorem lookup_join {shared : ℕ} {key k : K} {value : V} {old : Trie K V} (hp : shared < p)
    (hkeys : old.All fun k' => Agree bit shared key k' ∧ bit k' shared ≠ bit key shared) :
    (join bit shared key value old).lookup bit p k =
      if Agree bit p key k then some value else old.lookup bit p k := by
  by_cases hshared : Agree bit shared key k
  · by_cases hbit : bit k shared = bit key shared
    · have hold : old.lookup bit p k = none :=
        lookup_eq_none (hkeys.imp fun k' hk' hagree =>
          hk'.2 ((hagree shared hp).trans hbit))
      rw [hold, join]
      cases hkey : bit key shared <;> simp [lookup, hshared, hbit, hkey]
    · have hne : ¬ Agree bit p key k := fun h => hbit (h shared hp).symm
      rw [if_neg hne, join]
      cases hkey : bit key shared <;> simp_all [lookup]
  · have hne : ¬ Agree bit p key k := fun h => hshared (h.mono hp.le)
    have hold : old.lookup bit p k = none :=
      lookup_eq_none (hkeys.imp fun k' hk' (hagree : Agree bit p k' k) =>
        hshared (hk'.1.trans (hagree.mono hp.le)))
    rw [if_neg hne, hold, join]
    split <;> simp [lookup, hshared]

theorem lookup_insert {k k' : K} {v : V} (ht : t.Valid bit p) : (t.insert bit p k v).lookup bit p k' =
      if Agree bit p k k' then some v else t.lookup bit p k' := by
  induction t with
  | leaf key value =>
    rw [insert]
    by_cases hagree : Agree bit p key k
    · rw [if_pos hagree, lookup, lookup]
      simp only [hagree.congr_left k']
      split <;> rfl
    · rw [if_neg hagree]
      refine lookup_join (common_lt hagree) ?_
      exact parted_of_common (common_lt hagree) fun _ _ => rfl
  | branch shared key left right ihl ihr =>
    rw [insert]
    by_cases hcommon : common bit shared key k < shared
    · rw [if_pos hcommon]
      exact lookup_join (hcommon.trans ht.1) (ht.all_agree.imp fun k' hk' => parted_of_common hcommon hk')
    · rw [if_neg hcommon]
      by_cases hk : Agree bit p k k'
      · -- both keys take the branch of `k`
        have hshared : Agree bit shared key k' :=
          (agree_of_common hcommon).trans (hk.mono ht.1.le)
        have hbit : bit k shared = bit k' shared := hk shared ht.1
        rw [if_pos hk]
        split_ifs with hside
        · rw [lookup, if_pos hshared, if_pos (hbit ▸ hside), ihr ht.2.2.1, if_pos hk]
        · rw [lookup, if_pos hshared, if_neg (hbit ▸ hside), ihl ht.2.1, if_pos hk]
      · rw [if_neg hk]
        split_ifs
        · rw [lookup, lookup, ihr ht.2.2.1, if_neg hk]
        · rw [lookup, lookup, ihl ht.2.1, if_neg hk]

theorem All.of_leaf (h : t.All P) {e : K × V} (he : e ∈ t.leaves) : P e.1 := by
  induction t with
  | leaf key value =>
    obtain rfl := mem_singleton.mp he
    exact h
  | branch shared key left right ihl ihr =>
    rcases mem_append.mp he with he | he
    · exact ihl h.2.1 he
    · exact ihr h.2.2 he

theorem Valid.leaves_pairwise (h : t.Valid bit p) : t.leaves.Pairwise fun a b => ¬ Agree bit p a.1 b.1 := by
  induction t with
  | leaf key value => exact pairwise_singleton _ _
  | branch shared key left right ihl ihr =>
    refine pairwise_append.mpr ⟨ihl h.2.1, ihr h.2.2.1, fun a ha b hb hagree => ?_⟩
    have hbit := hagree shared h.1
    rw [(h.2.2.2.1.of_leaf ha).2, (h.2.2.2.2.of_leaf hb).2] at hbit
    cases hbit

theorem lookup_eq_some_iff (ht : t.Valid bit p) {k : K} {v : V} :
    t.lookup bit p k = some v ↔ ∃ key, (key, v) ∈ t.leaves ∧ Agree bit p key k := by
  induction t with
  | leaf key value =>
    simp only [lookup, leaves, mem_singleton, Prod.mk.injEq]
    constructor
    · intro h
      split_ifs at h with hagree
      exact ⟨key, ⟨rfl, (Option.some.inj h).symm⟩, hagree⟩
    · rintro ⟨_, ⟨rfl, rfl⟩, hagree⟩
      rw [if_pos hagree]
  | branch shared key left right ihl ihr =>
    have hleft : ∀ key', (key', v) ∈ left.leaves → Agree bit p key' k → Agree bit shared key k ∧ bit k shared = false := by
      intro key' hmem hagree
      obtain ⟨hshared, hbit⟩ := ht.2.2.2.1.of_leaf hmem
      exact ⟨hshared.trans (hagree.mono ht.1.le), (hagree shared ht.1).symm.trans hbit⟩
    have hright : ∀ key', (key', v) ∈ right.leaves → Agree bit p key' k → Agree bit shared key k ∧ bit k shared = true := by
      intro key' hmem hagree
      obtain ⟨hshared, hbit⟩ := ht.2.2.2.2.of_leaf hmem
      exact ⟨hshared.trans (hagree.mono ht.1.le), (hagree shared ht.1).symm.trans hbit⟩
    rw [lookup]
    constructor
    · intro h
      split_ifs at h
      · obtain ⟨key', hmem, hagree⟩ := (ihr ht.2.2.1).mp h
        exact ⟨key', mem_append_right _ hmem, hagree⟩
      · obtain ⟨key', hmem, hagree⟩ := (ihl ht.2.1).mp h
        exact ⟨key', mem_append_left _ hmem, hagree⟩
    · rintro ⟨key', hmem, hagree⟩
      rcases mem_append.mp hmem with hmem | hmem
      · obtain ⟨hshared, hbit⟩ := hleft key' hmem hagree
        rw [if_pos hshared, if_neg (by simp [hbit])]
        exact (ihl ht.2.1).mpr ⟨key', hmem, hagree⟩
      · obtain ⟨hshared, hbit⟩ := hright key' hmem hagree
        rw [if_pos hshared, if_pos hbit]
        exact (ihr ht.2.2.1).mpr ⟨key', hmem, hagree⟩

end Trie

end Amplet.PrefixTrie
