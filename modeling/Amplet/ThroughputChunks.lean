import Amplet.ChunkedCoding
import Amplet.FixedBuffer

/-!
# HTTP chunks of the throughput test

Embedding of `addHttpChunkHeader` and `addHttpHeaders` in
`src/tests/throughput/throughput_common.c`. `fill` is what was read from the random
device. The size of the chunk data is taken from a ladder of thresholds, in which the
rung for four digits is missing.
-/

namespace Amplet.ThroughputChunks
open List Bytes Numerals ChunkedCoding FixedBuffer

def randomMemset (fill data : CStr) (size : ℕ) : CStr := splice data 0 (fill.take size)

def chunkData (size : ℕ) : ℕ :=
  if size < 0x10 + 3 + 2 then size - 3 - 2
  else if size < 0x100 + 4 + 2 then size - 4 - 2
  else if size < 0x10000 + 5 + 2 then size - 5 - 2
  else if size < 0x100000 + 6 + 2 then size - 6 - 2
  else if size < 0x1000000 + 7 + 2 then size - 7 - 2
  else if size < 0x10000000 + 8 + 2 then size - 8 - 2
  else size - 9 - 2

def addHttpChunkHeader (fill data : CStr) (size : ℕ) (randomise : Bool) : CStr :=
  let data := if randomise then randomMemset fill data size else data
  if size < 5 then data
  else
    let data := splice data 0 (numeral 16 (chunkData size) ++ crlf ++ [0])
    splice data (size - 2) crlf

def headers : CStr :=
  cstr ("POST / HTTP/1.1\r\n" ++ "Host: 127.0.0.1\r\n" ++ "User-Agent: AMP throughput test agent\r\n" ++ "Accept: */*\r\n" ++
    "Transfer-Encoding: chunked\r\n" ++
    "Content-Type: application/x-www-form-urlencoded\r\n" ++ "\r\n")

def addHttpHeaders (fill data : CStr) (size : ℕ) : CStr :=
  if size < headers.length then data
  else
    -- the NUL of a header that fills the buffer falls behind it
    let data := (splice data 0 (headers ++ [0])).take data.length
    if 0 < size - headers.length then
      data.take headers.length ++ addHttpChunkHeader fill (data.drop headers.length) (size - headers.length) true
    else data

def WellSized (size : ℕ) : Prop :=
  size ≤ 20 ∨ (22 ≤ size ∧ size ≤ 261) ∨ (263 ≤ size ∧ size ≤ 4102) ∨ size = 0x10007 ∨
    size = 0x100008 ∨ size = 0x1000009 ∨ size = 0x1000000A

instance (size : ℕ) : Decidable (WellSized size) := inferInstanceAs (Decidable (_ ∨ _))

theorem length_headers : headers.length = 165 := by decide +kernel

section

variable {data : CStr} {size : ℕ}

theorem chunkData_cases (hmin : 5 ≤ size) (hmax : size < 2 ^ 32) :
    let total := (numeral 16 (chunkData size)).length + 4 + chunkData size
    (WellSized size ∧ total = size) ∨ (¬WellSized size ∧ total = size + 1) ∨ (¬WellSized size ∧ total + 1 = size) := by
  -- every rung but the first and the third has numbers of two lengths
  have rung (k : ℕ) {n : ℕ} (hle : 16 ^ k ≤ n) (hlt : n < 16 ^ (k + 2)) :=
    length_numeral_cases (by decide : 1 < 16) hle hlt
  have one {n : ℕ} (hlt : n < 16) : (numeral 16 n).length = 1 := length_numeral_of_lt hlt
  simp only [chunkData, WellSized]
  split_ifs with h₁ h₂ h₃ h₄ h₅ h₆
  · have hlength := one (n := size - 3 - 2) (by omega)
    omega
  · rcases Nat.lt_or_ge (size - 4 - 2) 16 with hlt | hge
    · have hlength := one hlt
      omega
    · rcases rung 1 hge (by omega) with ⟨hlt, hlength⟩ | ⟨hge', hlength⟩ <;> omega
  · rcases Nat.lt_or_ge (size - 5 - 2) 4096 with hlt | hge
    · rcases rung 1 (by omega) hlt with ⟨hlt', hlength⟩ | ⟨hge, hlength⟩ <;> omega
    · rcases rung 3 hge (by omega) with ⟨hlt, hlength⟩ | ⟨hge', hlength⟩ <;> omega
  · rcases rung 3 (n := size - 6 - 2) (by omega) (by omega) with ⟨hlt, hlength⟩ | ⟨hge, hlength⟩ <;>
      omega
  · rcases rung 4 (n := size - 7 - 2) (by omega) (by omega) with ⟨hlt, hlength⟩ | ⟨hge, hlength⟩ <;>
      omega
  · rcases rung 5 (n := size - 8 - 2) (by omega) (by omega) with ⟨hlt, hlength⟩ | ⟨hge, hlength⟩ <;>
      omega
  · rcases rung 6 (n := size - 9 - 2) (by omega) (by omega) with ⟨hlt, hlength⟩ | ⟨hge, hlength⟩ <;>
      omega

theorem length_randomMemset (fill : CStr) (hfit : size ≤ data.length) : (randomMemset fill data size).length = data.length := by
  apply length_splice
  rw [length_take]
  omega

theorem length_randomised (fill : CStr) (randomise : Bool) (hfit : size ≤ data.length) :
    (if randomise then randomMemset fill data size else data).length = data.length := by
  split_ifs
  · exact length_randomMemset fill hfit
  · rfl

theorem length_header_le (hmin : 5 ≤ size) (hmax : size < 2 ^ 32) : (numeral 16 (chunkData size)).length + 4 ≤ size := by
  have hpos : ¬WellSized size → 0 < chunkData size := by
    simp only [WellSized, chunkData]
    split_ifs <;> omega
  rcases chunkData_cases hmin hmax with ⟨-, h⟩ | ⟨hbad, h⟩ | ⟨-, h⟩
  · omega
  · have := hpos hbad
    omega
  · omega

section

variable (fill : CStr) (randomise : Bool) (hmin : 5 ≤ size) (hmax : size < 2 ^ 32)
  (hfit : size ≤ data.length)
include hmin hmax hfit

theorem take_addHttpChunkHeader : ∃ kept, (addHttpChunkHeader fill data size randomise).take size =
        numeral 16 (chunkData size) ++ (crlf ++ (kept ++ crlf)) ∧
      (numeral 16 (chunkData size)).length + 4 + kept.length = size := by
  have hroom := length_header_le hmin hmax
  rw [addHttpChunkHeader, if_neg (by omega)]
  have hlength := length_randomised fill randomise hfit
  generalize (if randomise then randomMemset fill data size else data) = buffer at hlength
  generalize hline : numeral 16 (chunkData size) ++ crlf = line
  have hlineLength : line.length = (numeral 16 (chunkData size)).length + 2 := by
    rw [← hline, length_append]
    rfl
  have hsplice : splice buffer 0 (line ++ [0]) = line ++ (0 :: buffer.drop (line.length + 1)) := by
    simp [splice]
  refine ⟨(0 :: buffer.drop (line.length + 1)).take (size - 2 - line.length), ?_, ?_⟩
  · have htake := take_splice crlf (show size - 2 ≤ (splice buffer 0 (line ++ [0])).length by
        rw [hsplice, length_append, length_cons, length_drop]
        omega)
    rw [show size - 2 + crlf.length = size from Nat.sub_add_cancel (by omega)] at htake
    rw [htake, hsplice, take_append, take_of_length_le (by omega), ← hline]
    simp only [append_assoc]
  · rw [length_take, length_cons, length_drop]
    omega

theorem isChunk_addHttpChunkHeader : IsChunk ((addHttpChunkHeader fill data size randomise).take size) ↔ WellSized size := by
  obtain ⟨kept, htake, hlength⟩ := take_addHttpChunkHeader fill randomise hmin hmax hfit
  have hvalue := valueOf_numeral (by decide : 1 < 16) (by decide) (chunkData size)
  constructor
  · rintro ⟨number, bytes, hnumber, hbytes, heq⟩
    simp only [htake, append_assoc] at heq
    obtain ⟨rfl, hrest⟩ := size_inj (isSize_numeral _) hnumber heq
    have hkept := congrArg length hrest
    rw [length_append, length_append, hbytes, hvalue] at hkept
    rcases chunkData_cases hmin hmax with ⟨hgood, -⟩ | ⟨-, h⟩ | ⟨-, h⟩
    · exact hgood
    · omega
    · omega
  · intro hgood
    refine ⟨_, kept, isSize_numeral (chunkData size), ?_, by simp only [htake, append_assoc]⟩
    rcases chunkData_cases hmin hmax with ⟨-, h⟩ | ⟨hbad, -⟩ | ⟨hbad, -⟩
    · omega
    · exact absurd hgood hbad
    · exact absurd hgood hbad

theorem not_isBody_addHttpChunkHeader (hbad : ¬WellSized size) (rest : CStr) :
    ¬IsBody ((addHttpChunkHeader fill data size randomise).take size ++ rest) := by
  obtain ⟨kept, htake, hlength⟩ := take_addHttpChunkHeader fill randomise hmin hmax hfit
  intro hbody
  have hvalue := valueOf_numeral (by decide : 1 < 16) (by decide) (chunkData size)
  have hline : IsBody (numeral 16 (chunkData size) ++ crlf ++ (kept ++ (crlf ++ rest))) := by
    simpa only [htake, append_assoc] using hbody
  have hend := isBody_crlf (isSize_numeral (chunkData size)) hline
  rw [hvalue] at hend
  rcases chunkData_cases hmin hmax with ⟨hgood, -⟩ | ⟨-, h⟩ | ⟨-, h⟩
  · exact hbad hgood
  · -- the data reaches into the last line end
    rw [show chunkData size = kept.length + 1 by omega, drop_length_add_append] at hend
    obtain ⟨after, hafter⟩ := hend
    simp [crlf] at hafter
  · -- the data stops before the last byte
    obtain ⟨init, last, rfl⟩ : ∃ init last, kept = init ++ [last] := by
      cases kept using reverseRecOn with
      | nil => simp at hlength h; omega
      | append_singleton init last => exact ⟨init, last, rfl⟩
    rw [length_append, length_singleton] at hlength
    rw [show chunkData size = init.length by omega, append_assoc, drop_left] at hend
    obtain ⟨after, hafter⟩ := hend
    simp [crlf] at hafter

end

def IsChunkWrite (packet : CStr) : Prop :=
  ∃ fill data randomise, packet.length ≤ data.length ∧
    packet = (addHttpChunkHeader fill data packet.length randomise).take packet.length

theorem length_addHttpChunkHeader (fill : CStr) (randomise : Bool) (hmax : size < 2 ^ 32) (hfit : size ≤ data.length) :
    (addHttpChunkHeader fill data size randomise).length = data.length := by
  have hbuffer := length_randomised fill randomise hfit
  unfold addHttpChunkHeader
  generalize (if randomise then randomMemset fill data size else data) = buffer at hbuffer
  dsimp only
  split_ifs with hsmall
  · exact hbuffer
  · have hroom := length_header_le (by omega) hmax
    have hline : (splice buffer 0 (numeral 16 (chunkData size) ++ crlf ++ [0])).length =
        data.length := by
      rw [length_splice, hbuffer]
      rw [hbuffer, length_append, length_append, length_crlf, length_singleton]
      omega
    rw [length_splice, hline]
    rw [hline, length_crlf]
    omega

theorem isChunkWrite_nil : IsChunkWrite [] := ⟨[], [], false, le_rfl, rfl⟩

theorem isChunkWrite_take (fill : CStr) (randomise : Bool) (hmax : size < 2 ^ 32) (hfit : size ≤ data.length) :
    IsChunkWrite ((addHttpChunkHeader fill data size randomise).take size) := by
  have hlength : ((addHttpChunkHeader fill data size randomise).take size).length = size := by
    rw [length_take, length_addHttpChunkHeader fill randomise hmax hfit, Nat.min_eq_left hfit]
  exact ⟨fill, data, randomise, by rwa [hlength], by rw [hlength]⟩

theorem splice_headers (hfit : headers.length ≤ data.length) :
    ((splice data 0 (headers ++ [0])).take data.length).length = data.length ∧
      ((splice data 0 (headers ++ [0])).take data.length).take headers.length = headers := by
  constructor
  · rw [length_take, splice, length_append, length_append, length_drop, length_append, length_singleton]
    omega
  · rw [take_take, Nat.min_eq_left hfit, splice]
    simp

theorem length_addHttpHeaders (fill : CStr) (hmax : size < 2 ^ 32) (hfit : size ≤ data.length) :
    (addHttpHeaders fill data size).length = data.length := by
  rw [addHttpHeaders]
  split_ifs with hsmall hrest
  · rfl
  · obtain ⟨hlength, htake⟩ := splice_headers (by omega : headers.length ≤ data.length)
    rw [length_append, length_addHttpChunkHeader fill true (by omega)
      (by rw [length_drop, hlength]; omega), length_drop, htake, hlength]
    omega
  · exact (splice_headers (by omega)).1

theorem take_addHttpHeaders (fill : CStr) (hmin : headers.length ≤ size) (hmax : size < 2 ^ 32) (hfit : size ≤ data.length) :
    ∃ packet, (addHttpHeaders fill data size).take size = headers ++ packet ∧ IsChunkWrite packet := by
  obtain ⟨hlength, htake⟩ := splice_headers (hmin.trans hfit)
  unfold addHttpHeaders
  rw [if_neg (by omega)]
  generalize (splice data 0 (headers ++ [0])).take data.length = buffer at hlength htake
  simp only [htake]
  split_ifs with hrest
  · have hfit' : size - headers.length ≤ (buffer.drop headers.length).length := by
      rw [length_drop]
      omega
    refine ⟨_, ?_, isChunkWrite_take fill true (by omega) hfit'⟩
    rw [take_append, take_of_length_le hmin]
  · have hsize : size = headers.length := by omega
    rw [hsize]
    exact ⟨[], htake.trans (append_nil _).symm, isChunkWrite_nil⟩

theorem isBody_writes_iff {packets : List CStr} (hwrites : ∀ p ∈ packets, IsChunkWrite p)
    (hsizes : ∀ p ∈ packets, (p = [] ∨ 6 ≤ p.length) ∧ p.length < 2 ^ 32) :
    IsBody packets.flatten ↔ ∀ p ∈ packets, WellSized p.length := by
  induction packets with
  | nil => simp
  | cons p packets ih =>
    obtain ⟨fill, data, randomise, hfit, hp⟩ := hwrites p (mem_cons_self ..)
    obtain ⟨hmin, hmax⟩ := hsizes p (mem_cons_self ..)
    have hrest := ih (fun q hq => hwrites q (mem_cons_of_mem _ hq)) fun q hq => hsizes q (mem_cons_of_mem _ hq)
    rw [flatten_cons, forall_mem_cons]
    rcases hmin with rfl | hmin
    · rw [nil_append, hrest]
      exact (and_iff_right (Or.inl (Nat.zero_le _))).symm
    have hchunk : IsChunk p ↔ WellSized p.length := by
      conv_lhs => rw [hp]
      exact isChunk_addHttpChunkHeader fill randomise (by omega) hmax hfit
    by_cases hgood : WellSized p.length
    · rw [isBody_append_iff (hchunk.mpr hgood), hrest]
      exact (and_iff_right hgood).symm
    · have hnot := not_isBody_addHttpChunkHeader fill randomise (by omega) hmax hfit hgood packets.flatten
      rw [← hp] at hnot
      exact iff_of_false hnot fun h => hgood h.1

end

end Amplet.ThroughputChunks
