import Amplet.Bytes
import Amplet.CompressedNames
import Amplet.FixedBuffer

/-!
# Names in DNS messages

Embedding of `decode` in `src/tests/dns/dns.c`. The message is the list of its bytes and
a pointer into it is a position. A read outside of the message, a write outside of the
buffer of `MAX_DNS_NAME_LEN` bytes and a name that does not end have no result.
-/

namespace Amplet.DnsNames
open List Bytes CompressedNames FixedBuffer

def maxDnsNameLen : ℕ := 255

abbrev NameBuffer := Buffer UInt8 maxDnsNameLen

def strncpy (data : CStr) (pos n : ℕ) : Option CStr :=
  let src := (data.drop pos).take n
  if src.length = n ∨ 0 ∈ src then
    let copied := src.takeWhile (· ≠ 0)
    some (copied ++ replicate (n - copied.length) 0)
  else none

structure Cursor where
  result : Option NameBuffer
  index : ℕ
  start : ℕ
  current : Option ℕ

def separate (b : NameBuffer) (index : ℕ) : Option (NameBuffer × ℕ) :=
  if index > 0 then (b.write index [dot]).map fun b => (b, index + 1) else some (b, index)

def appendPart (data : CStr) (c : Cursor) (length : ℕ) : Option Cursor :=
  match c.result with
  | none => some { c with index := c.index + length, start := c.start + length + 1 }
  | some b =>
    (separate b c.index).bind fun (b, index) =>
      (strncpy data (c.start + 1) length).bind fun bytes =>
        (b.write index bytes).map fun b =>
          { c with result := some b, index := index + length, start := c.start + length + 1 }

/-- Behind a pointer `continue` goes to the condition, which holds. -/
def decodeLoop (data : CStr) : ℕ → Cursor → Option Cursor
  | 0, _ => none
  | fuel + 1, c =>
    match data[c.start]? with
    | none => none
    | some length =>
      if length &&& 0xc0 = 0xc0 then
        match data[c.start + 1]? with
        | none => none
        | some low =>
          decodeLoop data fuel
            { c with
              current := some (c.current.getD (c.start + 2))
              start := (length &&& 0x3f).toNat <<< 8 ||| low.toNat }
      else if length > 0 then (appendPart data c length.toNat).bind (decodeLoop data fuel)
      else some c

def decode (fuel : ℕ) (result : Option NameBuffer) (data : CStr) (start : ℕ) : Option (Option NameBuffer × ℕ) :=
  (decodeLoop data fuel ⟨result, 0, start, none⟩).bind fun c =>
    let next := c.current.getD (c.start + 1)
    match c.result with
    | none => some (none, next)
    | some b => (b.write c.index [0]).map fun b => (some b, next)

def copied (label : CStr) : CStr :=
  label.takeWhile (· ≠ 0) ++ replicate (label.length - (label.takeWhile (· ≠ 0)).length) 0

theorem length_copied (label : CStr) : (copied label).length = label.length := by
  have hle := (takeWhile_sublist (fun b : UInt8 => decide (b ≠ 0)) (l := label)).length_le
  rw [copied, length_append, length_replicate]
  omega

theorem lengths_copied (labels : List CStr) : (labels.map copied).map length = labels.map length := by
  rw [map_map]
  exact map_congr_left fun label _ => length_copied label

section Step

variable {data label : CStr} {pos : ℕ}

theorem strncpy_label (hbytes : (data.drop pos).take label.length = label) :
    strncpy data pos label.length = some (copied label) := by
  simp only [strncpy, hbytes, true_or, if_true, copied]

theorem target_eq (high low : UInt8) : (high &&& 0x3f).toNat <<< 8 ||| low.toNat = target high low := by
  have hlow : low.toNat < 2 ^ 8 := low.toNat_lt
  rw [target, Nat.shiftLeft_eq, Nat.mul_comm, ← Nat.two_pow_add_eq_or_of_lt hlow]

theorem label_length {n : ℕ} (hpos : 0 < n) (hn : n ≤ 63) :
    ¬ (UInt8.ofNat n &&& 0xc0 = 0xc0) ∧ UInt8.ofNat n > 0 ∧ (UInt8.ofNat n).toNat = n := by
  have hbounded : ∀ n : Fin 64, ¬ (UInt8.ofNat n.val &&& 0xc0 = 0xc0) := by decide
  have htoNat : (UInt8.ofNat n).toNat = n := UInt8.toNat_ofNat_of_lt (lt_of_le_of_lt hn (by decide))
  refine ⟨hbounded ⟨n, by omega⟩, ?_, htoNat⟩
  rw [gt_iff_lt, UInt8.lt_iff_toNat_lt, htoNat]
  exact hpos

end Step

inductive Shows (c : Cursor) (text : CStr) : Prop
  | absent (hresult : c.result = none)
  | present {b : NameBuffer} (behind : CStr) (hresult : c.result = some b)
      (hcells : b.cells = text ++ behind) (hindex : c.index = text.length)

def Fits (c : Cursor) (text : CStr) : Prop := c.result = none ∨ text.length ≤ maxDnsNameLen

section Loop

variable {data label text : CStr} {pos next : ℕ} {c : Cursor} {labels : List CStr}

theorem separate_spec {b : NameBuffer} {behind : CStr} (hcells : b.cells = text ++ behind)
    (hfit : (dotBehind dot text).length ≤ maxDnsNameLen) :
    ∃ b' behind', separate b text.length = some (b', (dotBehind dot text).length) ∧ b'.cells = dotBehind dot text ++ behind' := by
  rw [separate, dotBehind]
  rw [dotBehind] at hfit
  split_ifs at hfit ⊢ with hpos hnil
  · rw [hnil] at hpos
    cases hpos
  · obtain ⟨b', hwrite, hcells'⟩ := Buffer.write_at [dot] hcells (by simpa using hfit)
    refine ⟨b', behind.drop 1, ?_, ?_⟩
    · rw [hwrite, Option.map_some, length_append, length_singleton]
    · rw [hcells', append_assoc, length_singleton]
  · rename_i hnil
    exact ⟨b, behind, by rw [hnil], by rw [hcells, hnil]⟩
  · rename_i hnil
    exact absurd (length_pos_iff.mpr hnil) hpos

theorem appendPart_spec (h : Shows c text) (hstart : c.start = pos) (hbytes : (data.drop (pos + 1)).take label.length = label)
    (hfit : Fits c (dotBehind dot text ++ label)) :
    ∃ c', appendPart data c label.length = some c' ∧ Shows c' (dotBehind dot text ++ copied label) ∧
      c'.start = pos + 1 + label.length ∧ c'.current = c.current ∧
      c'.result.isSome = c.result.isSome := by
  cases h with
  | absent hresult =>
    refine ⟨{ c with index := c.index + label.length, start := c.start + label.length + 1 }, ?_, .absent hresult, ?_, rfl, rfl⟩
    · rw [appendPart, hresult]
    · simp only [hstart]
      omega
  | @present b behind hresult hcells hindex =>
    have hlength := hfit.resolve_left (by simp [hresult])
    rw [length_append] at hlength
    obtain ⟨b₁, behind₁, hseparate, hcells₁⟩ := separate_spec hcells (by omega)
    obtain ⟨b₂, hwrite, hcells₂⟩ := Buffer.write_at (copied label) hcells₁ (by rw [length_copied]; exact hlength)
    refine ⟨{ c with
        result := some b₂
        index := (dotBehind dot text).length + label.length
        start := c.start + label.length + 1 }, ?_,
      .present (behind₁.drop (copied label).length) rfl ?_ ?_, ?_, rfl, ?_⟩
    · simp only [appendPart, hresult, hindex, hseparate, Option.bind_some, hstart, strncpy_label hbytes, hwrite, Option.map_some]
    · rw [hcells₂, append_assoc]
    · rw [length_append, length_copied]
    · simp only [hstart]
      omega
    · rw [hresult]
      rfl

theorem decodeLoop_name (h : NameAt data pos labels next) :
    ∃ enough, ∀ fuel, enough ≤ fuel → ∀ c text, c.start = pos → Shows c text →
      Fits c (extended dot text labels) → ∃ c', decodeLoop data fuel c = some c' ∧
        Shows c' (extended dot text (labels.map copied)) ∧
        c'.current.getD (c'.start + 1) = c.current.getD next ∧
        c'.result.isSome = c.result.isSome := by
  induction h with
  | @root pos hzero =>
    refine ⟨1, fun fuel hfuel c text hstart hshows _ => ⟨c, ?_, ?_, by rw [hstart], rfl⟩⟩
    · obtain ⟨fuel, rfl⟩ := Nat.exists_eq_add_of_le' hfuel
      rw [decodeLoop, hstart, hzero]
      rfl
    · rw [map_nil, extended_nil]
      exact hshows
  | @label pos next label labels hpos hlength hbyte hbytes hrest ih =>
    obtain ⟨enough, ih⟩ := ih
    refine ⟨enough + 1, fun fuel hfuel c text hstart hshows hfits => ?_⟩
    obtain ⟨fuel, rfl⟩ := Nat.exists_eq_add_of_le' (Nat.le_of_add_left_le hfuel)
    obtain ⟨hpointer, hpositive, htoNat⟩ := label_length hpos hlength
    rw [extended_cons dot text (ne_nil_of_length_pos hpos)] at hfits
    have hcopied : copied label ≠ [] :=
      ne_nil_of_length_pos (by rw [length_copied]; exact hpos)
    have hsame : (dotBehind dot text ++ copied label).length = (dotBehind dot text ++ label).length := by
      rw [length_append, length_append, length_copied]
    obtain ⟨c₁, happend, hshows₁, hstart₁, hcurrent₁, hresult₁⟩ := appendPart_spec hshows hstart hbytes
      (hfits.imp_right (length_le_extended dot _ labels).trans)
    have hfits₁ : Fits c₁ (extended dot (dotBehind dot text ++ copied label) labels) := by
      refine hfits.imp (fun hnone => ?_) (length_extended dot hsame labels).trans_le
      rw [hnone] at hresult₁
      exact Option.isNone_iff_eq_none.mp (Option.isSome_eq_false_iff.mp hresult₁)
    obtain ⟨c', hrun, hshows', hcurrent', hresult'⟩ :=
      ih fuel (by omega) c₁ _ hstart₁ hshows₁ hfits₁
    refine ⟨c', ?_, ?_, by rw [hcurrent', hcurrent₁], hresult'.trans hresult₁⟩
    · rw [decodeLoop, hstart, hbyte]
      dsimp only
      rw [if_neg hpointer, if_pos hpositive, htoNat, happend, Option.bind_some, hrun]
    · rw [map_cons, extended_cons dot text hcopied]
      exact hshows'
  | @pointer pos next high low labels hhigh hmark hlow hearlier htarget ih =>
    obtain ⟨enough, ih⟩ := ih
    refine ⟨enough + 1, fun fuel hfuel c text hstart hshows hfits => ?_⟩
    obtain ⟨fuel, rfl⟩ := Nat.exists_eq_add_of_le' (Nat.le_of_add_left_le hfuel)
    let c₁ : Cursor :=
      { c with current := some (c.current.getD (pos + 2)), start := target high low }
    have hshows₁ : Shows c₁ text := by
      cases hshows with
      | absent hresult => exact .absent hresult
      | present behind hresult hcells hindex => exact .present behind hresult hcells hindex
    obtain ⟨c', hrun, hshows', hcurrent', hresult'⟩ := ih fuel (by omega) c₁ text rfl hshows₁ hfits
    refine ⟨c', ?_, hshows', hcurrent', hresult'⟩
    rw [decodeLoop, hstart, hhigh]
    dsimp only
    rw [if_pos hmark, hlow]
    dsimp only
    rw [target_eq]
    exact hrun

theorem decode_name (h : NameAt data pos labels next) : ∃ enough, ∀ fuel, enough ≤ fuel →
    decode fuel none data pos = some (none, next) ∧ ((dotted dot labels).length < maxDnsNameLen → ∀ b : NameBuffer, ∃ b' behind,
        decode fuel (some b) data pos = some (some b', next) ∧ b'.cells = dotted dot (labels.map copied) ++ 0 :: behind) := by
  obtain ⟨enough, hloop⟩ := decodeLoop_name h
  refine ⟨enough, fun fuel hfuel => ⟨?_, fun hfits b => ?_⟩⟩
  · obtain ⟨c, hrun, -, hcurrent, hresult⟩ := hloop fuel hfuel ⟨none, 0, pos, none⟩ [] rfl (.absent rfl) (.inl rfl)
    have hnone : c.result = none :=
      Option.isNone_iff_eq_none.mp (Option.isSome_eq_false_iff.mp hresult)
    simp only [decode, hrun, Option.bind_some, hnone, hcurrent, Option.getD_none]
  · obtain ⟨c, hrun, hshows, hcurrent, hresult⟩ := hloop fuel hfuel ⟨some b, 0, pos, none⟩ [] rfl
      (.present b.cells rfl rfl rfl) (.inr hfits.le)
    cases hshows with
    | absent hnone =>
      rw [hnone] at hresult
      cases hresult
    | @present b₁ behind hsome hcells hindex =>
      have htext : extended dot [] (labels.map copied) = dotted dot (labels.map copied) := rfl
      have hroom : (dotted dot (labels.map copied)).length + 1 ≤ maxDnsNameLen := by
        rw [length_dotted dot (lengths_copied labels)]
        exact hfits
      rw [htext] at hcells hindex
      obtain ⟨b', hwrite, hcells'⟩ := Buffer.write_at [0] hcells hroom
      refine ⟨b', behind.drop 1, ?_, hcells'⟩
      simp only [decode, hrun, Option.bind_some, hsome, hcurrent, hindex, hwrite, Option.map_some, Option.getD_none]

end Loop

def Decodes (data : CStr) (pos : ℕ) (labels : List CStr) (next : ℕ) : Prop :=
  ∃ enough, ∀ fuel, enough ≤ fuel → decode fuel none data pos = some (none, next) ∧
    ∀ b : NameBuffer, ∃ b' behind, decode fuel (some b) data pos = some (some b', next) ∧
      b'.cells = [dot].intercalate labels ++ 0 :: behind

def NulsLast (label : CStr) : Prop := ∀ b ∈ label.dropWhile (· ≠ 0), b = 0

section Results

variable {data : CStr} {pos next : ℕ} {labels : List CStr}

theorem copied_eq_iff (label : CStr) : copied label = label ↔ NulsLast label := by
  have hsplit : label.takeWhile (· ≠ 0) ++ label.dropWhile (· ≠ 0) = label :=
    takeWhile_append_dropWhile
  have hlength : label.length - (label.takeWhile (· ≠ 0)).length = (label.dropWhile (· ≠ 0)).length := by
    have hsum := congrArg length hsplit
    rw [length_append] at hsum
    omega
  have hcopied : copied label = label.takeWhile (· ≠ 0) ++ replicate (label.dropWhile (· ≠ 0)).length 0 := by
    rw [copied, hlength]
  rw [hcopied, NulsLast]
  nth_rewrite 3 [← hsplit]
  rw [append_cancel_left_eq, eq_comm, eq_replicate_iff, and_iff_right rfl]

theorem nulsLast_of_notMem {label : CStr} (h : 0 ∉ label) : NulsLast label := by
  have hnil : label.dropWhile (· ≠ 0) = [] := by
    rw [dropWhile_eq_nil_iff]
    exact fun b hb => decide_eq_true fun heq => h (heq ▸ hb)
  rw [NulsLast, hnil]
  exact fun b hb => absurd hb not_mem_nil

theorem decodes_of_nulsLast (h : NameAt data pos labels next)
    (hfits : ([dot].intercalate labels).length < maxDnsNameLen) (hlabels : ∀ label ∈ labels, NulsLast label) :
    Decodes data pos labels next := by
  have hmap : labels.map copied = labels :=
    (map_congr_left fun label hl => (copied_eq_iff label).mpr (hlabels label hl)).trans (map_id _)
  obtain ⟨enough, hdecode⟩ := decode_name h
  rw [hmap, dotted_eq_intercalate] at hdecode
  exact ⟨enough, fun fuel hfuel => ⟨(hdecode fuel hfuel).1, (hdecode fuel hfuel).2 hfits⟩⟩

theorem Decodes.nulsLast (hdecodes : Decodes data pos labels next) (h : NameAt data pos labels next)
    (hfits : ([dot].intercalate labels).length < maxDnsNameLen) : ∀ label ∈ labels, NulsLast label := by
  obtain ⟨enough₁, hwanted⟩ := hdecodes
  obtain ⟨enough₂, hactual⟩ := decode_name h
  rw [← dotted_eq_intercalate] at hfits
  obtain ⟨b₁, behind₁, hdecode₁, hcells₁⟩ :=
    (hwanted (max enough₁ enough₂) (le_max_left _ _)).2 (Buffer.fill maxDnsNameLen 0)
  obtain ⟨b₂, behind₂, hdecode₂, hcells₂⟩ :=
    (hactual (max enough₁ enough₂) (le_max_right _ _)).2 hfits (Buffer.fill maxDnsNameLen 0)
  rw [hdecode₁] at hdecode₂
  obtain rfl : b₁ = b₂ := Option.some.inj (Prod.mk.inj (Option.some.inj hdecode₂)).1
  have hlengths := lengths_copied labels
  rw [← dotted_eq_intercalate] at hcells₁
  obtain ⟨htext, -⟩ := append_inj (hcells₂.symm.trans hcells₁) (length_dotted dot hlengths)
  have hmap : labels.map copied = labels.map id :=
    (dotted_injective dot hlengths htext).trans (map_id _).symm
  exact fun label hl => (copied_eq_iff label).mp (map_inj_left.mp hmap label hl)

theorem decodes_name_iff (h : NameAt data pos labels next) (hfits : ([dot].intercalate labels).length < maxDnsNameLen) :
    Decodes data pos labels next ↔ ∀ label ∈ labels, NulsLast label :=
  ⟨fun hdecodes => hdecodes.nulsLast h hfits, decodes_of_nulsLast h hfits⟩

end Results

def compressedMessage : CStr :=
  encoded [cstr "www", cstr "example", cstr "org"] ++ (3 :: cstr "foo") ++ [0xc0, 4, 0]

theorem compressed_name_decodes : Decodes compressedMessage 17 [cstr "foo", cstr "example", cstr "org"] 23 := by
  have htail : NameAt compressedMessage (target 0xc0 4) [cstr "example", cstr "org"] 17 := by
    refine .label (by decide) (by decide) (by decide) (by decide) ?_
    refine .label (by decide) (by decide) (by decide) (by decide) ?_
    exact .root (by decide)
  have hname : NameAt compressedMessage 17 [cstr "foo", cstr "example", cstr "org"] 23 := by
    refine .label (by decide) (by decide) (by decide) (by decide) ?_
    exact .pointer (by decide) (by decide) (by decide) (by decide) htail
  have hnone : ∀ label ∈ [cstr "foo", cstr "example", cstr "org"], 0 ∉ label := by decide
  exact (decodes_name_iff hname (by decide)).mpr fun label hlabel =>
    nulsLast_of_notMem (hnone label hlabel)

def nulMessage : CStr := [3, 97, 0, 98, 0]

theorem nul_label_cut : NameAt nulMessage 0 [[97, 0, 98]] 5 ∧ (decode 2 (some (Buffer.fill maxDnsNameLen 1)) nulMessage 0).map
        (fun x => (x.1.map fun b => b.cells.take 4, x.2)) = some (some [97, 0, 0, 0], 5) ∧
      ¬ Decodes nulMessage 0 [[97, 0, 98]] 5 := by
  have hname : NameAt nulMessage 0 [[97, 0, 98]] 5 :=
    .label (by decide) (by decide) (by decide) (by decide) (.root (by decide))
  refine ⟨hname, by decide +kernel, fun h => ?_⟩
  have hlast := h.nulsLast hname (by decide) [97, 0, 98] (mem_singleton_self _)
  exact absurd (hlast 98 (by decide)) (by decide)

end Amplet.DnsNames
