import Mathlib.Data.List.Basic
import Mathlib.Tactic

/-!
# Names of labels in a message

The domain names of RFC 1035: a name is a sequence of labels, each behind its
length, up to a length of zero or a pointer to an earlier position of the message
where the name goes on. Written out, the labels are joined by dots.
-/

namespace Amplet.CompressedNames
open List

def target (high low : UInt8) : ℕ := (high &&& 0x3f).toNat * 256 + low.toNat

inductive NameAt (msg : List UInt8) : ℕ → List (List UInt8) → ℕ → Prop
  | root {pos : ℕ} (hzero : msg[pos]? = some 0) : NameAt msg pos [] (pos + 1)
  | label {pos next : ℕ} {label : List UInt8} {labels : List (List UInt8)}
      (hpos : 0 < label.length) (hlength : label.length ≤ 63)
      (hbyte : msg[pos]? = some (UInt8.ofNat label.length))
      (hbytes : (msg.drop (pos + 1)).take label.length = label)
      (hrest : NameAt msg (pos + 1 + label.length) labels next) : NameAt msg pos (label :: labels) next
  | pointer {pos next : ℕ} {high low : UInt8} {labels : List (List UInt8)}
      (hhigh : msg[pos]? = some high) (hmark : high &&& 0xc0 = 0xc0) (hlow : msg[pos + 1]? = some low)
      (hearlier : target high low < pos) (htarget : NameAt msg (target high low) labels next) :
      NameAt msg pos labels (pos + 2)

theorem NameAt.lt {msg : List UInt8} {pos next : ℕ} {labels : List (List UInt8)}
    (h : NameAt msg pos labels next) : pos < next := by
  induction h with
  | root _ => exact Nat.lt_succ_self _
  | label _ _ _ _ _ ih => omega
  | pointer _ _ _ _ _ _ => omega

theorem NameAt.append {msg : List UInt8} {pos next : ℕ} {labels : List (List UInt8)}
    (h : NameAt msg pos labels next) (after : List UInt8) : NameAt (msg ++ after) pos labels next := by
  have hbyte : ∀ {pos : ℕ} {b : UInt8}, msg[pos]? = some b → (msg ++ after)[pos]? = some b := by
    intro pos b hb
    obtain ⟨hlt, -⟩ := List.getElem?_eq_some_iff.mp hb
    rw [getElem?_append_left hlt, hb]
  induction h with
  | root hzero => exact .root (hbyte hzero)
  | @label pos next label labels hpos hlength hlabel hbytes _ ih =>
    refine .label hpos hlength (hbyte hlabel) ?_ ih
    have hroom := congrArg length hbytes
    rw [length_take, length_drop] at hroom
    rw [drop_append_of_le_length (by omega), take_append_of_le_length (by rw [length_drop]; omega), hbytes]
  | pointer hhigh hmark hlow hearlier _ ih =>
    exact .pointer (hbyte hhigh) hmark (hbyte hlow) hearlier ih

def encoded : List (List UInt8) → List UInt8
  | [] => [0]
  | label :: labels => UInt8.ofNat label.length :: (label ++ encoded labels)

section Dotted

variable {α : Type*} (dot : α)

def dotted : List (List α) → List α
  | [] => []
  | label :: labels => label ++ labels.flatMap (dot :: ·)

theorem dotted_eq_intercalate (labels : List (List α)) : dotted dot labels = [dot].intercalate labels := by
  induction labels with
  | nil => rfl
  | cons label labels ih =>
    cases labels with
    | nil => simp [dotted]
    | cons next labels =>
      rw [intercalate_cons_of_ne_nil (by simp), ← ih]
      simp [dotted]

theorem exists_parts (text : List α) : ∃ label labels, text = dotted dot (label :: labels) ∧ ∀ l ∈ label :: labels, dot ∉ l := by
  induction text with
  | nil => exact ⟨[], [], rfl, by simp⟩
  | cons x text ih =>
    obtain ⟨label, labels, rfl, hparts⟩ := ih
    by_cases hx : x = dot
    · refine ⟨[], label :: labels, ?_, ?_⟩
      · rw [hx]
        simp [dotted]
      · exact forall_mem_cons.mpr ⟨not_mem_nil, hparts⟩
    · refine ⟨x :: label, labels, rfl, ?_⟩
      obtain ⟨hlabel, hlabels⟩ := forall_mem_cons.mp hparts
      refine forall_mem_cons.mpr ⟨?_, hlabels⟩
      rw [mem_cons]
      exact not_or.mpr ⟨Ne.symm hx, hlabel⟩

def extended (text : List α) (labels : List (List α)) : List α :=
  if text = [] then dotted dot labels else text ++ labels.flatMap (dot :: ·)

def dotBehind (text : List α) : List α := if text = [] then [] else text ++ [dot]

theorem extended_nil (text : List α) : extended dot text [] = text := by
  rw [extended]
  split_ifs with h
  · rw [h]
    rfl
  · simp

theorem extended_cons (text : List α) {label : List α} (hlabel : label ≠ []) (labels : List (List α)) :
    extended dot text (label :: labels) = extended dot (dotBehind dot text ++ label) labels := by
  have hne : dotBehind dot text ++ label ≠ [] := by simp [hlabel]
  rw [extended, extended, if_neg hne, dotBehind]
  split_ifs
  · rfl
  · simp

theorem length_le_extended (text : List α) (labels : List (List α)) : text.length ≤ (extended dot text labels).length := by
  rw [extended]
  split_ifs with h
  · simp [h]
  · simp

theorem length_extended {text text' : List α} (h : text.length = text'.length) (labels : List (List α)) :
    (extended dot text labels).length = (extended dot text' labels).length := by
  have hnil : text = [] ↔ text' = [] := by
    rw [← length_eq_zero_iff, ← length_eq_zero_iff, h]
  rw [extended, extended]
  split_ifs with h₁ h₂ h₂
  · rfl
  · exact absurd (hnil.mp h₁) h₂
  · exact absurd (hnil.mpr h₂) h₁
  · rw [length_append, length_append, h]

section

variable {xs ys : List (List α)} (hlengths : xs.map length = ys.map length)
include hlengths

theorem flatMap_dot_injective (h : xs.flatMap (dot :: ·) = ys.flatMap (dot :: ·)) : xs = ys := by
  induction xs generalizing ys with
  | nil =>
    cases ys with
    | nil => rfl
    | cons y ys => cases hlengths
  | cons x xs ih =>
    cases ys with
    | nil => cases hlengths
    | cons y ys =>
      obtain ⟨hlength, hlengths⟩ := cons.inj hlengths
      rw [flatMap_cons, flatMap_cons] at h
      obtain ⟨hhead, htail⟩ := append_inj h (by simp [hlength])
      rw [(cons.inj hhead).2, ih hlengths htail]

theorem length_dotted : (dotted dot xs).length = (dotted dot ys).length := by
  have hflat : ∀ zs : List (List α), (zs.flatMap (dot :: ·)).length = ((zs.map length).map (· + 1)).sum := fun zs => by
    rw [length_flatMap, map_map]
    rfl
  cases xs with
  | nil =>
    cases ys with
    | nil => rfl
    | cons y ys => cases hlengths
  | cons x xs =>
    cases ys with
    | nil => cases hlengths
    | cons y ys =>
      obtain ⟨hlength, hothers⟩ := cons.inj hlengths
      rw [dotted, dotted, length_append, length_append, hlength, hflat, hflat, hothers]

theorem dotted_injective (h : dotted dot xs = dotted dot ys) : xs = ys := by
  cases xs with
  | nil =>
    cases ys with
    | nil => rfl
    | cons y ys => cases hlengths
  | cons x xs =>
    cases ys with
    | nil => cases hlengths
    | cons y ys =>
      obtain ⟨hlength, hothers⟩ := cons.inj hlengths
      obtain ⟨rfl, htail⟩ := append_inj h hlength
      obtain rfl := flatMap_dot_injective dot hothers htail
      rfl

end

end Dotted

def wire (labels : List (List UInt8)) : List UInt8 :=
  labels.flatMap fun label => UInt8.ofNat label.length :: label

section Encoded

variable {labels : List (List UInt8)}

theorem wire_cons (label : List UInt8) (labels : List (List UInt8)) :
    wire (label :: labels) = UInt8.ofNat label.length :: (label ++ wire labels) := by
  rw [wire, flatMap_cons, cons_append, wire]

theorem encoded_eq (labels : List (List UInt8)) : encoded labels = wire labels ++ [0] := by
  induction labels with
  | nil => rfl
  | cons label labels ih => rw [encoded, ih, wire_cons, cons_append, append_assoc]

theorem length_wire (dot : UInt8) (labels : List (List UInt8)) : (wire labels).length = (labels.flatMap (dot :: ·)).length := by
  rw [wire, length_flatMap, length_flatMap]
  rfl

theorem length_le_flatMap (dot : UInt8) (labels : List (List UInt8)) : labels.length ≤ (labels.flatMap (dot :: ·)).length := by
  induction labels with
  | nil => exact Nat.zero_le _
  | cons label labels ih =>
    rw [flatMap_cons, length_append, length_cons, length_cons]
    omega

theorem zero_notMem_wire (hlabels : ∀ l ∈ labels, 0 < l.length ∧ l.length ≤ 63 ∧ 0 ∉ l) : 0 ∉ wire labels := by
  intro hmem
  obtain ⟨label, hlabel, hzero⟩ := mem_flatMap.mp hmem
  obtain ⟨hpos, hlength, hnone⟩ := hlabels label hlabel
  rcases mem_cons.mp hzero with heq | hzero
  · have htoNat : (UInt8.ofNat label.length).toNat = label.length :=
      UInt8.toNat_ofNat_of_lt (lt_of_le_of_lt hlength (by decide))
    rw [← heq] at htoNat
    exact absurd hpos (htoNat ▸ lt_irrefl _)
  · exact hnone hzero

theorem nameAt_encoded (hlabels : ∀ l ∈ labels, 0 < l.length ∧ l.length ≤ 63)
    (before after : List UInt8) : NameAt (before ++ (encoded labels ++ after)) before.length labels
      (before.length + (encoded labels).length) := by
  induction labels generalizing before with
  | nil => exact .root (by simp [encoded])
  | cons label labels ih =>
    obtain ⟨hpos, hlength⟩ := hlabels label (mem_cons_self ..)
    have hrest := ih (fun l hl => hlabels l (mem_cons_of_mem _ hl)) (before ++ UInt8.ofNat label.length :: label)
    have hmsg : before ++ (encoded (label :: labels) ++ after) =
        before ++ UInt8.ofNat label.length :: label ++ (encoded labels ++ after) := by
      simp [encoded]
    have hstart : (before ++ UInt8.ofNat label.length :: label).length = before.length + 1 + label.length := by
      rw [length_append, length_cons]
      omega
    have hstop : before.length + (encoded (label :: labels)).length =
        before.length + 1 + label.length + (encoded labels).length := by
      rw [encoded, length_cons, length_append]
      omega
    rw [hmsg, hstop]
    rw [hstart] at hrest
    refine .label hpos hlength (by simp) ?_ hrest
    rw [append_assoc, ← drop_drop, drop_left]
    simp

end Encoded

end Amplet.CompressedNames
