import Amplet.AsnWorker
import Amplet.FixedBuffer

/-!
# The receive buffer of the whois client

Embedding of `process_buffer` and the reading loop of `amp_asn_fetch_results_direct` in
`src/common/asn.c`, and of `read_asn_request` in `src/measured/asnsock.c`, over the
buffer of 1024 bytes and its offset. A read outside the buffer, a null token and a
failed assertion are `none`.
-/

namespace Amplet.AsnBuffer
open List Option Bytes SocketAddress AddressTrie AsnLines FixedBuffer
  Amplet.Delimited

structure Answers where
  result : IpTrie
  info : Option IpTrie
  outstanding : Option ℤ

def Answers.add (e : Endian) (a : Answers) (x : SockAddr × ℤ) : Answers where
  result := addEntry e a.result x
  info := a.info.map fun trie => addEntry e trie x
  outstanding := a.outstanding.map (· - 1)

structure Receiving where
  answers : Answers
  buffer : Buffer UInt8 bufferLen
  offset : ℕ

def Receiving.moveUp (m : Receiving) (mem : CStr) (linelen : ℕ) : Option Receiving :=
  if linelen ≤ m.offset then
    -- the buffer as strtok_r left it, moved, and terminated
    (m.buffer.write 0 mem).bind fun stored =>
      (stored.write 0 (stored.cells.drop linelen)).bind fun moved =>
        (moved.write (m.offset - linelen) [0]).map fun buffer =>
          { m with buffer := buffer, offset := m.offset - linelen }
  else none

def Receiving.hasLine (m : Receiving) : Prop := newline ∈ stringAt m.buffer.cells 0

instance (m : Receiving) : Decidable m.hasLine :=
  inferInstanceAs (Decidable (newline ∈ stringAt m.buffer.cells 0))

def processLine (e : Endian) (inet : Inet) (m : Receiving) : Option Receiving :=
  match strtokR newline m.buffer.cells 0 with
  | none => none
  | some token =>
    let line := stringAt token.mem token.start
    let linelen := line.length + 1
    if isHeader line then m.moveUp token.mem linelen
    else
      (addParsedLine inet token.mem token.start).bind fun (mem, x) =>
        { m with answers := m.answers.add e x }.moveUp mem linelen

def processBuffer (e : Endian) (inet : Inet) : ℕ → Receiving → Option Receiving
  | 0, m => some m
  | n + 1, m => if m.hasLine then (processLine e inet m).bind (processBuffer e inet n) else some m

def Receiving.room (m : Receiving) : ℕ := bufferLen - m.offset - 1

def readAsnRequest (m : Receiving) (bytes : CStr) : Option Receiving :=
  (m.buffer.write m.offset bytes).bind fun stored =>
    (stored.write (m.offset + bytes.length) [0]).map fun buffer =>
      { m with buffer := buffer, offset := m.offset + bytes.length }

/-- `available` says how many bytes each call of `recv` finds; one that returns none is the last.
-/
def fetchResults (e : Endian) (inet : Inet) : List ℕ → CStr → Receiving → Option (Receiving × CStr)
  | [], pending, m => some (m, pending)
  | n :: available, pending, m =>
    let bytes := pending.take (min n m.room)
    if bytes = [] then some (m, pending)
    else
      (readAsnRequest m bytes).bind fun m =>
        (processBuffer e inet bufferLen m).bind (fetchResults e inet available (pending.drop bytes.length))

def Receiving.start (a : Answers) : Receiving := ⟨a, Buffer.fill bufferLen 0, 0⟩

structure Holds (m : Receiving) (text : CStr) : Prop where
  offset : m.offset = text.length
  cells : ∃ junk, m.buffer.cells = text ++ 0 :: junk

def Parsing.answers (s : Parsing) : Answers := ⟨s.result, s.info, s.outstanding⟩

structure Refines (m : Receiving) (s : Parsing) : Prop where
  answers : m.answers = Parsing.answers s
  holds : Holds m s.buffer

section Rel

variable {α β : Type*} {R : α → β → Prop}

theorem rel_some_left {a : α} {y : Option β} (h : Option.Rel R (some a) y) : ∃ b, y = some b ∧ R a b := by
  cases h with
  | some hab => exact ⟨_, rfl, hab⟩

theorem rel_some_right {x : Option α} {b : β} (h : Option.Rel R x (some b)) : ∃ a, x = some a ∧ R a b := by
  cases h with
  | some hab => exact ⟨_, rfl, hab⟩

theorem rel_bind {x : Option α} {y : Option β} {f : α → Option α} {g : β → Option β}
    (h : Option.Rel R x y) (hnext : ∀ a b, R a b → Option.Rel R (f a) (g b)) :
    Option.Rel R (x.bind f) (y.bind g) := by
  cases h with
  | none => exact .none
  | some hab => exact hnext _ _ hab

end Rel

section Refinement

variable {m : Receiving} {s : Parsing}

theorem Holds.lt {text : CStr} (h : Holds m text) : text.length < bufferLen := by
  obtain ⟨junk, hcells⟩ := h.cells
  have hlength := m.buffer.length_eq
  rw [hcells, length_append, length_cons] at hlength
  omega

theorem Holds.start (a : Answers) : Holds (.start a) [] := ⟨rfl, replicate 1023 0, rfl⟩

theorem moveUp_holds {mem junk : CStr} {linelen : ℕ} (hoffset : m.offset = mem.length)
    (hlength : (mem ++ 0 :: junk).length = bufferLen) (hlinelen : linelen ≤ mem.length) :
    ∃ m', m.moveUp (mem ++ 0 :: junk) linelen = some m' ∧ m'.answers = m.answers ∧ Holds m' (mem.drop linelen) := by
  obtain ⟨stored, hstored, hcells₁⟩ := m.buffer.write_all hlength
  obtain ⟨moved, hmoved, hcells₂⟩ := stored.write_drop linelen
  have hdrop : stored.cells.drop linelen = mem.drop linelen ++ 0 :: junk := by
    rw [hcells₁, drop_append_of_le_length hlinelen]
  have hfront : moved.cells = mem.drop linelen ++ ([0] ++ (junk ++ stored.cells.drop (bufferLen - linelen))) := by
    rw [hcells₂, hdrop, append_assoc, cons_append, singleton_append]
  obtain ⟨buffer, hbuffer, hcells₃⟩ := Buffer.write_split [0] hfront rfl
  rw [length_drop, ← hoffset] at hbuffer
  refine ⟨{ m with buffer := buffer, offset := m.offset - linelen }, ?_, rfl, ?_, _, hcells₃⟩
  · rw [Receiving.moveUp, if_pos (hoffset ▸ hlinelen), hstored, bind_some, hmoved, bind_some, hbuffer, map_some]
  · rw [length_drop, ← hoffset]

theorem processLine_refines (e : Endian) (inet : Inet) (h : Refines m s) (hline : newline ∈ stringAt s.buffer 0) :
    Option.Rel Refines (processLine e inet m) (AsnLines.processLine e inet s) := by
  obtain ⟨junk, hcells⟩ := h.holds.cells
  have hsize := m.buffer.length_eq
  rw [hcells] at hsize
  rw [processLine, AsnLines.processLine, hcells, strtokR_terminated newline junk (Nat.zero_le _)]
  cases ht : strtokR newline s.buffer 0 with
  | none => exact .none
  | some t =>
    obtain ⟨hlength, hstart, -, hle⟩ := strtokR_line ht hline
    have hfull : ∀ mem : CStr, mem.length = t.mem.length → (mem ++ 0 :: junk).length = bufferLen :=
      fun mem hmem => by
        rw [← hsize, length_append, length_append, hmem, hlength]
    simp only [map_some, Token.extend, stringAt_terminated junk (hlength ▸ hstart)]
    split_ifs with hheader
    · obtain ⟨m', hmove, hanswers, hholds⟩ :=
        moveUp_holds (h.holds.offset.trans hlength.symm) (hfull _ rfl) (hlength ▸ hle)
      rw [hmove]
      exact .some ⟨hanswers.trans h.answers, hholds⟩
    · rw [addParsedLine_terminated inet junk (hlength ▸ hstart)]
      cases hadd : addParsedLine inet t.mem t.start with
      | none => exact .none
      | some x =>
        have hmem : x.1.length = t.mem.length := length_addParsedLine hadd
        have hoffset : { m with answers := m.answers.add e x.2 }.offset = x.1.length :=
          h.holds.offset.trans (hlength.symm.trans hmem.symm)
        obtain ⟨m', hmove, hanswers, hholds⟩ :=
          moveUp_holds hoffset (hfull _ hmem) (hle.trans_eq (hlength.symm.trans hmem.symm))
        simp only [map_some, bind_some]
        rw [hmove]
        refine .some ⟨hanswers.trans ?_, hholds⟩
        rw [h.answers]
        rfl

theorem Holds.hasLine_iff {text : CStr} (h : Holds m text) : m.hasLine ↔ newline ∈ stringAt text 0 := by
  obtain ⟨junk, hcells⟩ := h.cells
  rw [Receiving.hasLine, hcells, stringAt_terminated junk (Nat.zero_le _)]

/-- The loop over the buffer does what the loop over the bytes before the offset does. -/
theorem processBuffer_refines (e : Endian) (inet : Inet) (h : Refines m s) (fuel : ℕ) :
    Option.Rel Refines (processBuffer e inet fuel m) (AsnLines.processBuffer e inet fuel s) := by
  induction fuel generalizing m s with
  | zero => exact .some h
  | succ fuel ih =>
    rw [processBuffer, AsnLines.processBuffer]
    by_cases hline : newline ∈ stringAt s.buffer 0
    · rw [if_pos (h.holds.hasLine_iff.mpr hline), if_pos hline]
      exact rel_bind (processLine_refines e inet h hline) fun m' s' hrefines => ih hrefines
    · rw [if_neg (h.holds.hasLine_iff.not.mpr hline), if_neg hline]
      exact .some h

/-- A header, two answers and the start of a third. -/
def receivedText : CStr :=
  cstr "Bulk mode\n" ++ AsnWorker.documentationLine ++ cstr "\n64501   | 198.51.100.1     | OTHER-AS\n6450"

def received : Receiving :=
  ⟨⟨⟨.null, .null⟩, some ⟨.null, .null⟩, some 3⟩,
    ⟨receivedText ++ 0 :: replicate (1023 - receivedText.length) 0, by decide +kernel⟩, receivedText.length⟩

theorem two_answers_processed : ∃ m', processBuffer .little (AsnWorker.libcInet .little) 5 received = some m' ∧
    m'.offset = 4 ∧ m'.answers.outstanding = some 1 := by
  have hrel := processBuffer_refines .little (AsnWorker.libcInet .little)
    (show Refines received ⟨⟨.null, .null⟩, some ⟨.null, .null⟩, receivedText, some 3⟩ from ⟨rfl, rfl, _, rfl⟩) 5
  have hlines : (AsnLines.processBuffer .little (AsnWorker.libcInet .little) 5
      ⟨⟨.null, .null⟩, some ⟨.null, .null⟩, receivedText, some 3⟩).map (fun s => (s.buffer, s.outstanding)) =
        some (cstr "6450", some 1) := by
    decide +kernel
  obtain ⟨s', hs', heq⟩ := map_eq_some_iff.mp hlines
  rw [hs'] at hrel
  generalize processBuffer .little (AsnWorker.libcInet .little) 5 received = result at hrel ⊢
  cases hrel with
  | some hrefines =>
    refine ⟨_, rfl, ?_, ?_⟩
    · rw [hrefines.holds.offset, (Prod.mk.inj heq).1]
      rfl
    · rw [hrefines.answers, ← (Prod.mk.inj heq).2]
      rfl

end Refinement

def Answers.handle (e : Endian) (inet : Inet) (a : Answers) (line : CStr) : Answers :=
  match lineEntry inet line with
  | none => a
  | some x => a.add e x

theorem Parsing.answers_after (e : Endian) (inet : Inet) (s : Parsing) (line rest : CStr) :
    Parsing.answers (s.after e (lineEntry inet line).toList rest) = (Parsing.answers s).handle e inet line := by
  rw [Answers.handle]
  cases lineEntry inet line with
  | none =>
    obtain ⟨result, info, buffer, outstanding⟩ := s
    simp [Parsing.answers, Parsing.after]
  | some x => rfl

def Receiving.contents (m : Receiving) : CStr := m.buffer.cells.take m.offset

def RemovesFirstLine (m m' : Receiving) : Prop :=
  ∃ first rest, m.contents = first ++ newline :: rest ∧ newline ∉ first ∧ Holds m' rest

section Turns

variable {e : Endian} {inet : Inet} {m : Receiving} {text first rest : CStr}

theorem Holds.contents (h : Holds m text) : m.contents = text := by
  obtain ⟨junk, hcells⟩ := h.cells
  rw [Receiving.contents, hcells, h.offset, take_left]

theorem exists_first_line (h : newline ∈ stringAt text 0) :
    ∃ first rest, text = first ++ newline :: rest ∧ newline ∉ first ∧ 0 ∉ first := by
  obtain ⟨before, post, htext, hbefore, hzero, -⟩ := exists_stringAt (Nat.zero_le text.length)
  obtain ⟨first, rest, hstring, hfirst⟩ := exists_line h
  rw [eq_nil_of_length_eq_zero hbefore, hstring] at htext
  rw [hstring] at hzero
  exact ⟨first, rest ++ post, by simpa using htext, hfirst, fun hmem => hzero (by simp [hmem])⟩

def Receiving.parsing (m : Receiving) (text : CStr) : Parsing :=
  ⟨m.answers.result, m.answers.info, text, m.answers.outstanding⟩

theorem newline_visible (rest : CStr) (hzero : 0 ∉ first) : newline ∈ stringAt (first ++ newline :: rest) 0 := by
  rw [stringAt_first rest hzero]
  simp

theorem processLine_rel (e : Endian) (inet : Inet) (hm : Holds m (first ++ newline :: rest))
    (hzero : 0 ∉ first) : Option.Rel Refines (processLine e inet m)
      (AsnLines.processLine e inet (m.parsing (first ++ newline :: rest))) :=
  processLine_refines e inet ⟨rfl, hm⟩ (newline_visible rest hzero)

theorem processLine_right (h : Readable inet first) (hm : Holds m (first ++ newline :: rest))
    (hfirst : newline ∉ first) (hzero : 0 ∉ first) :
    ∃ m', processLine e inet m = some m' ∧ m'.answers = m.answers.handle e inet first ∧ Holds m' rest := by
  have hrel := processLine_rel e inet hm hzero
  rw [processLine_readable h rfl hzero hfirst] at hrel
  obtain ⟨m', hturn, hrefines⟩ := rel_some_right hrel
  exact ⟨m', hturn, hrefines.answers.trans (Parsing.answers_after e inet _ first rest), hrefines.holds⟩

theorem processLine_wrong (h : ¬ Readable inet first) (hm : Holds m (first ++ newline :: rest))
    (hfirst : newline ∉ first) (hzero : 0 ∉ first) {m' : Receiving}
    (hturn : processLine e inet m = some m') : ¬ Holds m' rest := by
  have hrel := processLine_rel e inet hm hzero
  rw [hturn] at hrel
  obtain ⟨s, hs, hrefines⟩ := rel_some_left hrel
  -- only an empty line gets this far, and more than its newline is removed
  have hempty : first = [] := by
    by_contra hne
    rw [processLine_unreadable h hne rfl hzero hfirst] at hs
    cases hs
  have hlt := length_processLine hs (newline_visible rest hzero)
  intro hholds
  rw [hrefines.holds.offset.symm.trans hholds.offset, hempty] at hlt
  exact absurd hlt (by simp [Receiving.parsing])

theorem Holds.removes_iff (hm : Holds m (first ++ newline :: rest)) (hfirst : newline ∉ first)
    (m' : Receiving) : RemovesFirstLine m m' ↔ Holds m' rest := by
  constructor
  · rintro ⟨first', rest', hcontents, hfirst', hholds⟩
    rw [hm.contents] at hcontents
    obtain ⟨-, rfl⟩ := first_line_unique hcontents hfirst hfirst'
    exact hholds
  · exact fun hholds => ⟨first, rest, hm.contents, hfirst, hholds⟩

end Turns

/-! The lines of a text that the string functions see, and what is behind them. -/

section Visible

variable {text : CStr}

def visibleLines (text : CStr) : List CStr := lines newline (stringAt text 0)

def leftover (text : CStr) : CStr := text.drop (joined newline (visibleLines text)).length

theorem visibleLines_first {first : CStr} (rest : CStr) (hzero : 0 ∉ first)
    (hfirst : newline ∉ first) : visibleLines (first ++ newline :: rest) = first :: visibleLines rest := by
  rw [visibleLines, stringAt_first rest hzero, lines_first hfirst, visibleLines]

theorem visibleLines_eq_nil_iff : visibleLines text = [] ↔ newline ∉ stringAt text 0 := by
  refine ⟨fun h hline => ?_, lines_of_notMem⟩
  obtain ⟨first, rest, rfl, hfirst, hzero⟩ := exists_first_line hline
  rw [visibleLines_first rest hzero hfirst] at h
  cases h

theorem leftover_of_nil (h : visibleLines text = []) : leftover text = text := by
  rw [leftover, h]
  rfl

theorem leftover_first {first : CStr} (rest : CStr) (hzero : 0 ∉ first) (hfirst : newline ∉ first) :
    leftover (first ++ newline :: rest) = leftover rest := by
  have hdrop : ∀ k, (first ++ newline :: rest).drop (first.length + (k + 1)) = rest.drop k := fun k => by
    rw [← drop_drop, drop_left, drop_succ_cons]
  rw [leftover, visibleLines_first rest hzero hfirst, joined_cons, length_append, length_cons, hdrop, leftover]

@[elab_as_elim]
theorem visible_induction {P : CStr → Prop} (last : ∀ text, visibleLines text = [] → P text)
    (line : ∀ first rest, newline ∉ first → 0 ∉ first → P rest → P (first ++ newline :: rest))
    (text : CStr) : P text := by
  generalize hlength : text.length = n
  induction n using Nat.strong_induction_on generalizing text with
  | h n ih =>
    by_cases hline : newline ∈ stringAt text 0
    · obtain ⟨first, rest, rfl, hfirst, hzero⟩ := exists_first_line hline
      have hlt : rest.length < n := by
        rw [← hlength, length_append, length_cons]
        omega
      exact line first rest hfirst hzero (ih rest.length hlt rest rfl)
    · exact last text (visibleLines_eq_nil_iff.mpr hline)

theorem visibleLines_leftover (text : CStr) : visibleLines (leftover text) = [] := by
  induction text using visible_induction with
  | last text h => rw [leftover_of_nil h, h]
  | line first rest hfirst hzero ih => rw [leftover_first rest hzero hfirst, ih]

theorem joined_visibleLines (text : CStr) : joined newline (visibleLines text) ++ leftover text = text := by
  induction text using visible_induction with
  | last text h => rw [leftover_of_nil h, h, joined_nil, nil_append]
  | line first rest hfirst hzero ih =>
    rw [visibleLines_first rest hzero hfirst, leftover_first rest hzero hfirst, joined_cons, append_assoc, cons_append, ih]

theorem visibleLines_append (text pending : CStr) :
    visibleLines (text ++ pending) = visibleLines text ++ visibleLines (leftover text ++ pending) := by
  induction text using visible_induction with
  | last text h => rw [h, leftover_of_nil h, nil_append]
  | line first rest hfirst hzero ih =>
    rw [append_assoc, cons_append, visibleLines_first _ hzero hfirst,
      visibleLines_first rest hzero hfirst, leftover_first rest hzero hfirst, ih, cons_append]

theorem leftover_append (text pending : CStr) : leftover (text ++ pending) = leftover (leftover text ++ pending) := by
  induction text using visible_induction with
  | last text h => rw [leftover_of_nil h]
  | line first rest hfirst hzero ih =>
    rw [append_assoc, cons_append, leftover_first _ hzero hfirst, leftover_first rest hzero hfirst, ih]

theorem length_visibleLine_lt {l : CStr} (h : l ∈ visibleLines text) : l.length < text.length :=
  (length_line_lt h).trans_le (takeWhile_sublist _).length_le

theorem length_visibleLines_le (text : CStr) : (visibleLines text).length ≤ text.length :=
  (length_lines_le _ _).trans (takeWhile_sublist _).length_le

end Visible

def LoopRight (e : Endian) (inet : Inet) : ℕ → Receiving → Prop
  | 0, m => ¬ m.hasLine
  | n + 1, m => m.hasLine →
    ∃ m', processLine e inet m = some m' ∧ RemovesFirstLine m m' ∧ LoopRight e inet n m'

section Loop

variable {e : Endian} {inet : Inet} {m : Receiving} {text : CStr} {fuel : ℕ}

theorem processBuffer_right (hm : Holds m text) (hlines : ∀ l ∈ visibleLines text, Readable inet l)
    (hfuel : (visibleLines text).length ≤ fuel) :
    LoopRight e inet fuel m ∧ ∃ m', processBuffer e inet fuel m = some m' ∧
      m'.answers = (visibleLines text).foldl (Answers.handle e inet) m.answers ∧
      Holds m' (leftover text) := by
  induction text using visible_induction generalizing m fuel with
  | last text hnone =>
    have hloop : ¬ m.hasLine := hm.hasLine_iff.not.mpr (visibleLines_eq_nil_iff.mp hnone)
    rw [hnone, leftover_of_nil hnone]
    cases fuel with
    | zero => exact ⟨hloop, m, rfl, rfl, hm⟩
    | succ fuel =>
      exact ⟨fun h => absurd h hloop, m, by rw [processBuffer, if_neg hloop], rfl, hm⟩
  | line first rest hfirst hzero ih =>
    rw [visibleLines_first rest hzero hfirst] at hlines hfuel ⊢
    rw [leftover_first rest hzero hfirst]
    have hloop : m.hasLine := hm.hasLine_iff.mpr (newline_visible rest hzero)
    obtain ⟨m', hturn, hanswers, hholds⟩ :=
      processLine_right (hlines first (mem_cons_self ..)) hm hfirst hzero
    cases fuel with
    | zero => cases hfuel
    | succ fuel =>
      obtain ⟨hright, m'', hrun, hanswers', hholds'⟩ := ih hholds
        (fun l hl => hlines l (mem_cons_of_mem _ hl)) (Nat.le_of_succ_le_succ hfuel)
      refine ⟨fun _ => ⟨m', hturn, (hm.removes_iff hfirst m').mpr hholds, hright⟩, m'', ?_, ?_, hholds'⟩
      · rw [processBuffer, if_pos hloop, hturn, bind_some, hrun]
      · rw [hanswers', hanswers, foldl_cons]

theorem LoopRight.readable (h : LoopRight e inet fuel m) (hm : Holds m text) : ∀ l ∈ visibleLines text, Readable inet l := by
  induction text using visible_induction generalizing m fuel with
  | last text hnone => simp [hnone]
  | line first rest hfirst hzero ih =>
    have hloop : m.hasLine := hm.hasLine_iff.mpr (newline_visible rest hzero)
    cases fuel with
    | zero => exact absurd hloop h
    | succ fuel =>
      obtain ⟨m', hturn, hremoves, hright⟩ := h hloop
      have hholds := (hm.removes_iff hfirst m').mp hremoves
      rw [visibleLines_first rest hzero hfirst]
      refine forall_mem_cons.mpr ⟨?_, ih hright hholds⟩
      by_contra hwrong
      exact processLine_wrong hwrong hm hfirst hzero hturn hholds

end Loop

def FetchRight (e : Endian) (inet : Inet) : List ℕ → CStr → Receiving → Prop
  | [], _, _ => True
  | n :: available, pending, m =>
    let bytes := pending.take (min n m.room)
    bytes ≠ [] → ∃ m', readAsnRequest m bytes = some m' ∧ LoopRight e inet bufferLen m' ∧
      ∃ m'', processBuffer e inet bufferLen m' = some m'' ∧ FetchRight e inet available (pending.drop bytes.length) m''

/-- A line that is not shorter fills the buffer, and nothing is read any more. -/
def fits (line : CStr) : Bool := line.length + 1 < bufferLen

def AllReadable (inet : Inet) (stream : CStr) : Prop :=
  ∀ line ∈ (visibleLines stream).takeWhile fits, Readable inet line

section Fetch

variable {e : Endian} {inet : Inet} {m : Receiving} {text pending : CStr} {available : List ℕ}
  {bytes : CStr}

theorem readAsnRequest_holds (hm : Holds m text) (hroom : bytes.length ≤ m.room) :
    ∃ m', readAsnRequest m bytes = some m' ∧ m'.answers = m.answers ∧ Holds m' (text ++ bytes) := by
  obtain ⟨junk, hcells⟩ := hm.cells
  have hlt := hm.lt
  have hoffset := hm.offset
  rw [Receiving.room] at hroom
  obtain ⟨stored, hstored, hcells₁⟩ := Buffer.write_at bytes hcells (by omega)
  rw [← append_assoc] at hcells₁
  obtain ⟨buffer, hbuffer, hcells₂⟩ := Buffer.write_at [0] hcells₁ (by
    rw [length_append, length_singleton]
    omega)
  refine ⟨{ m with buffer := buffer, offset := m.offset + bytes.length }, ?_, rfl, ?_, _, hcells₂⟩
  · rw [← hoffset] at hstored
    rw [length_append, ← hoffset] at hbuffer
    rw [readAsnRequest, hstored, bind_some, hbuffer, map_some]
  · rw [length_append, ← hoffset]

theorem allReadable_append (hfull : text.length < bufferLen) (pending : CStr) : AllReadable inet (text ++ pending) ↔
      (∀ l ∈ visibleLines text, Readable inet l) ∧ AllReadable inet (leftover text ++ pending) := by
  have hfits : ∀ l ∈ visibleLines text, fits l = true := fun l hl => by
    have hlt := length_visibleLine_lt hl
    exact decide_eq_true (by omega)
  rw [AllReadable, visibleLines_append, takeWhile_append_of_pos hfits, forall_mem_append]
  rfl

theorem allReadable_of_nil (h : visibleLines text = []) : AllReadable inet text := by
  rw [AllReadable, h]
  exact fun line hline => absurd hline not_mem_nil

theorem length_le_first {first rest : CStr} (hnone : visibleLines text = [])
    (hsplit : text ++ pending = first ++ newline :: rest) (hfirst : newline ∉ first)
    (hzero : 0 ∉ first) : text.length ≤ first.length := by
  rcases append_eq_append_iff.mp hsplit with ⟨more, htext, -⟩ | ⟨more, htext, hmore⟩
  · rw [htext, length_append]
    omega
  · cases more with
    | nil =>
      rw [append_nil] at htext
      exact (congrArg length htext).le
    | cons b more =>
      obtain ⟨rfl, -⟩ := cons.inj hmore
      rw [htext, visibleLines_first more hzero hfirst] at hnone
      cases hnone

theorem allReadable_of_full (hfull : text.length + 1 = bufferLen) (hnone : visibleLines text = [])
    (pending : CStr) : AllReadable inet (text ++ pending) := by
  by_cases hline : newline ∈ stringAt (text ++ pending) 0
  · obtain ⟨first, rest, hsplit, hfirst, hzero⟩ := exists_first_line hline
    have hlong := length_le_first hnone hsplit hfirst hzero
    have hfits : ¬ fits first = true := fun hfits => by
      have hlt := of_decide_eq_true hfits
      omega
    rw [AllReadable, hsplit, visibleLines_first rest hzero hfirst, takeWhile_cons_of_neg hfits]
    exact fun line hline => absurd hline not_mem_nil
  · exact allReadable_of_nil (visibleLines_eq_nil_iff.mpr hline)

structure Fetched (e : Endian) (inet : Inet) (a : Answers) (received : CStr) (m : Receiving) :
    Prop where
  answers : m.answers = (visibleLines received).foldl (Answers.handle e inet) a
  holds : Holds m (leftover received)

theorem Fetched.of_nil (hm : Holds m text) (hnone : visibleLines text = []) : Fetched e inet m.answers text m := by
  constructor
  · rw [hnone]
    rfl
  · rwa [leftover_of_nil hnone]

theorem Fetched.append {a : Answers} {received : CStr} {m' : Receiving}
    (h : Fetched e inet a text m) (h' : Fetched e inet m.answers (leftover text ++ received) m') :
    Fetched e inet a (text ++ received) m' := by
  constructor
  · rw [visibleLines_append, foldl_append, ← h.answers, h'.answers]
  · rw [leftover_append]
    exact h'.holds

theorem read_process_right (e : Endian) (hm : Holds m text) (hroom : bytes.length ≤ m.room)
    (hlines : ∀ l ∈ visibleLines (text ++ bytes), Readable inet l) :
    ∃ m₁ m₂, readAsnRequest m bytes = some m₁ ∧ LoopRight e inet bufferLen m₁ ∧
      processBuffer e inet bufferLen m₁ = some m₂ ∧ Fetched e inet m.answers (text ++ bytes) m₂ := by
  obtain ⟨m₁, hread, hanswers₁, hholds₁⟩ := readAsnRequest_holds hm hroom
  have hfuel := (length_visibleLines_le (text ++ bytes)).trans hholds₁.lt.le
  obtain ⟨hright, m₂, hrun, hanswers₂, hholds₂⟩ := processBuffer_right hholds₁ hlines hfuel
  exact ⟨m₁, m₂, hread, hright, hrun, ⟨hanswers₁ ▸ hanswers₂, hholds₂⟩⟩

theorem take_room_eq_nil {n : ℕ} (h : pending.take (min n m.room) = []) (hn : 0 < n) : pending = [] ∨ m.room = 0 := by
  rcases take_eq_nil_iff.mp h with hzero | hnil
  · exact .inr (by omega)
  · exact .inl hnil

theorem length_take_room (m : Receiving) (pending : CStr) (n : ℕ) : (pending.take (min n m.room)).length ≤ m.room := by
  rw [length_take]
  omega

theorem length_drop_lt {n k : ℕ} (hbytes : pending.take n ≠ [])
    (henough : pending.length ≤ k + 1) : (pending.drop (pending.take n).length).length ≤ k := by
  have hpos := length_pos_iff.mpr hbytes
  rw [length_drop]
  omega

theorem take_append_drop_length (pending : CStr) (n : ℕ) : pending.take n ++ pending.drop (pending.take n).length = pending := by
  rw [length_take]
  rcases Nat.le_total n pending.length with h | h
  · rw [Nat.min_eq_left h, take_append_drop]
  · rw [Nat.min_eq_right h, take_of_length_le h, drop_length, append_nil]

theorem fetchResults_right (hm : Holds m text) (hnone : visibleLines text = [])
    (hreadable : AllReadable inet (text ++ pending)) (available : List ℕ) :
    FetchRight e inet available pending m ∧ ∃ m' received left,
      fetchResults e inet available pending m = some (m', left) ∧ pending = received ++ left ∧
      Fetched e inet m.answers (text ++ received) m' ∧
      ((∀ n ∈ available, 0 < n) → pending.length ≤ available.length → left = [] ∨ m'.room = 0) := by
  induction available generalizing m text pending with
  | nil =>
    refine ⟨trivial, m, [], pending, rfl, rfl, ?_, fun _ h => ?_⟩
    · rw [append_nil]
      exact .of_nil hm hnone
    · exact .inl (eq_nil_of_length_eq_zero (Nat.le_zero.mp h))
  | cons n available ih =>
    by_cases hbytes : pending.take (min n m.room) = []
    · refine ⟨fun h => absurd hbytes h, m, [], pending, ?_, rfl, ?_, fun hpos _ => ?_⟩
      · simp only [fetchResults, hbytes, if_true]
      · rw [append_nil]
        exact .of_nil hm hnone
      · exact take_room_eq_nil hbytes (hpos n (mem_cons_self ..))
    · have hpending := take_append_drop_length pending (min n m.room)
      rw [← hpending, ← append_assoc] at hreadable
      obtain ⟨m₁, hread, -, hholds₁⟩ := readAsnRequest_holds hm (length_take_room m pending n)
      obtain ⟨hlines, hreadable'⟩ := (allReadable_append hholds₁.lt _).mp hreadable
      obtain ⟨m₁, m₂, hread, hright, hrun, hfetched⟩ :=
        read_process_right e hm (length_take_room m pending n) hlines
      obtain ⟨hright', m', received, left, hfetch, hsplit, hfetched', hprogress⟩ :=
        ih hfetched.holds (visibleLines_leftover _) hreadable'
      refine ⟨fun _ => ⟨m₁, hread, hright, m₂, hrun, hright'⟩, m',
        pending.take (min n m.room) ++ received, left, ?_, ?_, ?_, fun hpos henough => ?_⟩
      · simp only [fetchResults, if_neg hbytes, hread, hrun, bind_some, hfetch]
      · rw [append_assoc, ← hsplit, hpending]
      · rw [← append_assoc]
        exact hfetched.append hfetched'
      · exact hprogress (fun k hk => hpos k (mem_cons_of_mem _ hk)) (length_drop_lt hbytes henough)

theorem FetchRight.allReadable (h : FetchRight e inet available pending m) (hm : Holds m text)
    (hnone : visibleLines text = []) (hpos : ∀ n ∈ available, 0 < n)
    (henough : pending.length ≤ available.length) : AllReadable inet (text ++ pending) := by
  induction available generalizing m text pending with
  | nil =>
    rw [eq_nil_of_length_eq_zero (Nat.le_zero.mp henough), append_nil]
    exact allReadable_of_nil hnone
  | cons n available ih =>
    by_cases hbytes : pending.take (min n m.room) = []
    · rcases take_room_eq_nil hbytes (hpos n (mem_cons_self ..)) with rfl | hfull
      · rw [append_nil]
        exact allReadable_of_nil hnone
      · refine allReadable_of_full ?_ hnone pending
        have hlt := hm.lt
        have hoffset := hm.offset
        rw [Receiving.room] at hfull
        omega
    · obtain ⟨m₁, hread, hright, m₂, hrun, hnext⟩ := h hbytes
      obtain ⟨m₁', hread', hanswers₁, hholds₁⟩ :=
        readAsnRequest_holds hm (length_take_room m pending n)
      obtain rfl : m₁ = m₁' := some.inj (hread.symm.trans hread')
      have hlines := hright.readable hholds₁
      obtain ⟨m₁', m₂', hread', -, hrun', hfetched⟩ :=
        read_process_right e hm (length_take_room m pending n) hlines
      obtain rfl : m₁ = m₁' := some.inj (hread.symm.trans hread')
      obtain rfl : m₂ = m₂' := some.inj (hrun.symm.trans hrun')
      have hrest := ih hnext hfetched.holds (visibleLines_leftover _)
        (fun k hk => hpos k (mem_cons_of_mem _ hk)) (length_drop_lt hbytes henough)
      rw [← take_append_drop_length pending (min n m.room), ← append_assoc]
      exact (allReadable_append hholds₁.lt _).mpr ⟨hlines, hrest⟩

end Fetch

section Results

variable {e : Endian} {inet : Inet} {response : CStr}

structure Response (inet : Inet) (response : CStr) : Prop where
  terminated : 0 ∉ response
  readable : ∀ line ∈ lines newline response, Readable inet line
  short : ∀ line ∈ lines newline response, line.length + 1 < bufferLen
  last : (unfinished newline response).length < bufferLen

theorem visibleLines_eq_lines (h : 0 ∉ response) : visibleLines response = lines newline response := by
  have hmem : response = [] ++ (response ++ []) := by simp
  rw [visibleLines, show stringAt response 0 = response from stringAt_eq h (by simp) hmem]

theorem leftover_eq_unfinished (h : 0 ∉ response) : leftover response = unfinished newline response := by
  have hsplit := (joined_visibleLines response).trans (joined_lines newline response).symm
  rw [visibleLines_eq_lines h] at hsplit
  exact append_cancel_left hsplit

theorem Response.room {received left : CStr} (h : Response inet (received ++ left))
    (hfull : (leftover received).length + 1 = bufferLen) : left = [] := by
  have hnone := visibleLines_leftover received
  by_cases hline : newline ∈ stringAt (leftover received ++ left) 0
  · obtain ⟨first, rest, hsplit, hfirst, hzero⟩ := exists_first_line hline
    have hlong := length_le_first hnone hsplit hfirst hzero
    have hmem : first ∈ lines newline (received ++ left) := by
      rw [← visibleLines_eq_lines h.terminated, visibleLines_append, hsplit, visibleLines_first rest hzero hfirst]
      simp
    have hshort := h.short first hmem
    omega
  · have hlast := h.last
    rw [← leftover_eq_unfinished h.terminated, leftover_append,
      leftover_of_nil (visibleLines_eq_nil_iff.mpr hline), length_append] at hlast
    exact eq_nil_of_length_eq_zero (by omega)

theorem Response.allReadable (h : Response inet response) : AllReadable inet response := by
  rw [AllReadable, visibleLines_eq_lines h.terminated]
  exact fun line hline => h.readable line (takeWhile_subset _ hline)

theorem fetchResults_chunked (e : Endian) (h : Response inet response) (a : Answers) (available : List ℕ) :
    ∃ m received left, fetchResults e inet available response (.start a) = some (m, left) ∧ response = received ++ left ∧
      m.answers = (lines newline received).foldl (Answers.handle e inet) a ∧
      Holds m (unfinished newline received) ∧
      ((∀ n ∈ available, 0 < n) → response.length ≤ available.length → received = response) := by
  obtain ⟨-, m, received, left, hfetch, hsplit, hfetched, hprogress⟩ :=
    fetchResults_right (e := e) (Holds.start a) rfl h.allReadable available
  have hzero : 0 ∉ received := fun hmem => h.terminated (hsplit ▸ mem_append_left _ hmem)
  refine ⟨m, received, left, hfetch, hsplit, ?_, ?_, fun hpos henough => ?_⟩
  · rw [← visibleLines_eq_lines hzero]
    exact hfetched.answers
  · rw [← leftover_eq_unfinished hzero]
    exact hfetched.holds
  · have hleft : left = [] := by
      rcases hprogress hpos henough with hleft | hroom
      · exact hleft
      · have hholds : Holds m (leftover received) := hfetched.holds
        have hlt := hholds.lt
        have hoffset := hholds.offset
        rw [Receiving.room] at hroom
        exact Response.room (hsplit ▸ h) (by omega)
    rw [hsplit, hleft, append_nil]

theorem fetchRight_iff (e : Endian) (inet : Inet) (a : Answers) (stream : CStr) :
    (∀ available, FetchRight e inet available stream (.start a)) ↔ AllReadable inet stream := by
  constructor
  · intro h
    -- byte by byte everything is read that can be
    have hread := h (replicate stream.length 1)
    refine hread.allReadable (Holds.start a) rfl (fun n hn => ?_) (by simp)
    rw [eq_of_mem_replicate hn]
    exact Nat.one_pos
  · exact fun h available => (fetchResults_right (Holds.start a) rfl h available).1

end Results

def noAnswers : Answers := ⟨⟨.null, .null⟩, none, some 1⟩

def documentationResponse : CStr :=
  joined newline [cstr "Bulk mode", AsnWorker.documentationLine]

theorem documentationResponse_valid : Response (AsnWorker.libcInet .little) documentationResponse := by
  have hlines : lines newline documentationResponse = [cstr "Bulk mode", AsnWorker.documentationLine] := by decide +kernel
  refine ⟨by decide +kernel, ?_, ?_, by decide +kernel⟩
  · rw [hlines]
    refine forall_mem_cons.mpr ⟨.inl (by decide +kernel), forall_mem_singleton.mpr ?_⟩
    exact .inr (by decide +kernel)
  · rw [hlines]
    decide +kernel

theorem documentationResponse_fetched : ∃ m, fetchResults .little (AsnWorker.libcInet .little)
      (replicate documentationResponse.length 1) documentationResponse (.start noAnswers) =
        some (m, []) ∧ m.answers.outstanding = some 0 ∧ m.offset = 0 := by
  obtain ⟨m, received, left, hfetch, hsplit, hanswers, hholds, hall⟩ := fetchResults_chunked .little
    documentationResponse_valid noAnswers (replicate documentationResponse.length 1)
  have hreceived := hall (fun n hn => by rw [eq_of_mem_replicate hn]; decide) (by simp)
  have hleft : left = [] := by simpa [hreceived] using hsplit
  rw [hreceived] at hanswers hholds
  have hcount : ((lines newline documentationResponse).foldl
      (Answers.handle .little (AsnWorker.libcInet .little)) noAnswers).outstanding = some 0 := by
    decide +kernel
  have hlast : (unfinished newline documentationResponse).length = 0 := by decide +kernel
  exact ⟨m, hleft ▸ hfetch, hanswers ▸ hcount, hholds.offset.trans hlast⟩

theorem documentationResponse_safe : ∀ available, FetchRight .little (AsnWorker.libcInet .little)
    available documentationResponse (.start noAnswers) :=
  (fetchRight_iff .little (AsnWorker.libcInet .little) noAnswers documentationResponse).mpr
    documentationResponse_valid.allReadable

/-- Two blank lines before a header are kept, and all but the end of the header is taken for them.
-/
theorem blank_lines_mishandled : fetchResults .little (AsnWorker.libcInet .little) [1] [newline] (.start noAnswers) = none ∧
      (∃ m, fetchResults .little (AsnWorker.libcInet .little) [7] (cstr "\n\nBulk\n") (.start noAnswers) =
        some (m, []) ∧ m.contents = cstr "k" ++ [0]) ∧
      ¬ FetchRight .little (AsnWorker.libcInet .little) [1] [newline] (.start noAnswers) := by
  refine ⟨?_, ?_, fun h => ?_⟩
  · rw [← isNone_iff_eq_none]
    decide +kernel
  · have hmoved : ((fetchResults .little (AsnWorker.libcInet .little) [7] (cstr "\n\nBulk\n")
        (.start noAnswers)).map fun x => (x.1.contents, x.2)) = some (cstr "k" ++ [0], []) := by
      decide +kernel
    obtain ⟨⟨m, left⟩, hfetch, heq⟩ := map_eq_some_iff.mp hmoved
    obtain ⟨hcontents, rfl⟩ := Prod.mk.inj heq
    exact ⟨m, hfetch, hcontents⟩
  · have hreadable := h.allReadable (Holds.start noAnswers) rfl (by simp) (by simp)
    have hmem : [] ∈ (visibleLines ([] ++ [newline])).takeWhile fits := by decide +kernel
    exact (hreadable [] hmem).ne_nil rfl

end Amplet.AsnBuffer
