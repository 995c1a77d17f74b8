import Amplet.ArgumentVector
import Amplet.FixedBuffer
import Amplet.ParamWords

/-!
# The buffers of the tokeniser

`parse_param_string` and `save_token` in `src/measured/schedule.c` with the memory they
use. Neither the offset into the token nor the count of words is compared with a limit.
-/

namespace Amplet.ParamBuffers
open List Bytes ParamString QuotedWords FixedBuffer ArgumentVector

def maxArgumentLength : ℕ := 1024

structure Buffers where
  state : ParseState
  token : Buffer UInt8 (maxArgumentLength + 1)
  offset : ℕ
  result : Buffer (Option CStr) maxTestArgs
  count : ℕ

inductive Failure
  | parseError
  | overrun
deriving DecidableEq

def Buffers.store (b : Buffers) (c : UInt8) (state : ParseState) : Except Failure Buffers :=
  match b.token.write b.offset [c] with
  | some token => .ok { b with token := token, offset := b.offset + 1, state := state }
  | none => .error .overrun

def strdup {n : ℕ} (text : Buffer UInt8 n) : Option CStr :=
  if 0 ∈ text.cells then some (text.cells.takeWhile (· ≠ 0)) else none

def Buffers.saveToken (b : Buffers) : Except Failure Buffers :=
  match strdup b.token with
  | none => .error .overrun
  | some word =>
    match b.result.write b.count [some word] with
    | none => .error .overrun
    | some result =>
      match b.token.write 0 (replicate maxArgumentLength 0) with
      | none => .error .overrun
      | some token => .ok { b with token := token, result := result, count := b.count + 1 }

def Buffers.escaped (b : Buffers) (c : UInt8) : Except Failure Buffers :=
  b.store c (if b.state = .whitespace then .character else b.state)

def Buffers.next (b : Buffers) (c : UInt8) : Except Failure Buffers :=
  match b.state with
  | .whitespace =>
    if isBlank c then .ok b
    else if c = doubleQuote then .ok { b with state := .dquote }
    else if c = singleQuote then .ok { b with state := .squote }
    else b.store c .character
  | .dquote => if c = doubleQuote then .ok { b with state := .character } else b.store c .dquote
  | .squote => if c = singleQuote then .ok { b with state := .character } else b.store c .squote
  | .character =>
    if c = doubleQuote then .ok { b with state := .dquote }
    else if c = singleQuote then .ok { b with state := .squote }
    else if isBlank c then
      b.saveToken.map fun b => { b with offset := 0, state := .whitespace }
    else b.store c .character

def scan : Buffers → CStr → Except Failure Buffers
  | b, [] => .ok b
  | b, c :: rest =>
    if c = backslash then
      match rest with
      | [] => .error .parseError
      | c' :: rest => (b.escaped c').bind fun b => scan b rest
    else (b.next c).bind fun b => scan b rest

def Buffers.trace : Buffers → CStr → List Buffers
  | b, [] => [b]
  | b, c :: rest =>
    b :: if c = backslash then
      match rest with
      | [] => []
      | c' :: rest =>
        match b.escaped c' with
        | .ok b => b.trace rest
        | .error _ => []
    else
      match b.next c with
      | .ok b => b.trace rest
      | .error _ => []

def start (malloced : Buffer (Option CStr) maxTestArgs) : Buffers :=
  ⟨.whitespace, .fill _ 0, 0, malloced, 0⟩

def Buffers.terminate (b : Buffers) : Except Failure (List (Option CStr)) :=
  match b.result.write b.count [none] with
  | some result => .ok result.cells
  | none => .error .overrun

def Buffers.finish (b : Buffers) : Except Failure (List (Option CStr)) :=
  if b.state = .dquote ∨ b.state = .squote then .error .parseError
  else b.saveToken.bind Buffers.terminate

def parseParamString (malloced : Buffer (Option CStr) maxTestArgs) : Option CStr → Except Failure (List (Option CStr))
  | none => .ok [none]
  | some [] => .ok [none]
  | some (c :: s) => (scan (start malloced) (c :: s)).bind Buffers.finish

structure Represents (b : Buffers) (m : Tokeniser) : Prop where
  state : b.state = m.state
  token : b.token.cells = m.token ++ replicate (maxArgumentLength + 1 - m.token.length) 0
  short : m.token.length ≤ maxArgumentLength
  text : 0 ∉ m.token
  offset : b.offset = m.token.length
  result : ∃ rest, b.result.cells = m.result.map some ++ rest
  count : b.count = m.result.length

def Within (m : Tokeniser) : Prop :=
  m.token.length ≤ maxArgumentLength ∧ m.result.length ≤ maxTestArgs

/-- Within the limits the code follows the tokeniser; beyond them it leaves its buffers or has an
offset above the limit. -/
inductive Tracks (r : Except Failure Buffers) (m : Tokeniser) : Prop
  | follows (b : Buffers) (hr : r = .ok b) (h : Represents b m)
  | overruns (hr : r = .error .overrun) (h : ¬ Within m)
  | exceeds (b : Buffers) (hr : r = .ok b) (hb : maxArgumentLength < b.offset) (h : ¬ Within m)

section Steps

variable {b : Buffers} {m : Tokeniser}

theorem Represents.within (h : Represents b m) : Within m := by
  obtain ⟨rest, hrest⟩ := h.result
  have hlength := b.result.length_eq
  rw [hrest, length_append, length_map] at hlength
  exact ⟨h.short, by omega⟩

theorem represents_start (malloced : Buffer (Option CStr) maxTestArgs) : Represents (start malloced) ⟨.whitespace, [], []⟩ where
  state := rfl
  token := rfl
  short := Nat.zero_le _
  text := not_mem_nil
  offset := rfl
  result := ⟨malloced.cells, rfl⟩
  count := rfl

section

variable (h : Represents b m)
include h

theorem Represents.setState (state : ParseState) : Represents { b with state := state } { m with state := state } :=
  { h with state := rfl }

variable {c : UInt8}

theorem store_tracks (hc : c ≠ 0) (state : ParseState) : Tracks (b.store c state) (m.store c state) := by
  obtain ⟨k, hk⟩ := Nat.exists_eq_add_of_le h.short
  have hcells : b.token.cells = m.token ++ ([0] ++ replicate k 0) := by
    rw [h.token, show maxArgumentLength + 1 - m.token.length = k + 1 by omega, replicate_succ, singleton_append]
  obtain ⟨token, hwrite, htoken⟩ := Buffer.write_split [c] hcells rfl
  rw [← h.offset] at hwrite
  have hlength : (m.store c state).token.length = m.token.length + 1 := length_append
  have hstore : b.store c state = .ok { b with token := token, offset := b.offset + 1, state := state } := by
    rw [Buffers.store, hwrite]
  by_cases hshort : m.token.length + 1 ≤ maxArgumentLength
  · refine .follows _ hstore ⟨rfl, ?_, hlength ▸ hshort, ?_, ?_, h.result, h.count⟩
    · change token.cells = m.token ++ [c] ++ _
      rw [htoken, hlength, show maxArgumentLength + 1 - (m.token.length + 1) = k by omega, append_assoc]
    · intro hmem
      rcases mem_append.mp hmem with hmem | hmem
      · exact h.text hmem
      · exact hc (mem_singleton.mp hmem).symm
    · change b.offset + 1 = _
      rw [hlength, h.offset]
  · refine .exceeds _ hstore ?_ fun hwithin => hshort (hlength ▸ hwithin.1)
    change maxArgumentLength < b.offset + 1
    rw [h.offset]
    omega

theorem strdup_token : strdup b.token = some m.token := by
  obtain ⟨k, hk⟩ := Nat.exists_eq_add_of_le h.short
  have hcells : b.token.cells = m.token ++ 0 :: replicate k 0 := by
    rw [h.token, show maxArgumentLength + 1 - m.token.length = k + 1 by omega, replicate_succ]
  rw [strdup, hcells, if_pos (by simp), (Delimited.takeWhile_ne_cons h.text _).1]

theorem saveToken_follows (hroom : m.result.length < maxTestArgs) : ∃ b', b.saveToken = .ok b' ∧ b'.state = b.state ∧
      Represents { b' with offset := 0 } m.saveToken := by
  obtain ⟨rest, hrest⟩ := h.result
  have hlength := b.result.length_eq
  rw [hrest, length_append, length_map] at hlength
  obtain ⟨old, rest, rfl⟩ : ∃ old rest', rest = old :: rest' :=
    exists_cons_of_length_pos (by omega)
  have hcells : b.result.cells = m.result.map some ++ ([old] ++ rest) := hrest
  obtain ⟨result, hwrite, hresult⟩ := Buffer.write_split [some m.token] hcells rfl
  rw [length_map, ← h.count] at hwrite
  obtain ⟨k, hk⟩ := Nat.exists_eq_add_of_le h.short
  have hbytes : b.token.cells = [] ++ ((m.token ++ replicate k 0) ++ [0]) := by
    rw [h.token, show maxArgumentLength + 1 - m.token.length = k + 1 by omega, replicate_succ']
    simp
  -- the bytes that are cleared end before the last one of the buffer
  obtain ⟨token, hclear, htoken⟩ :=
    Buffer.write_split (replicate maxArgumentLength 0) hbytes (by rw [length_append, length_replicate, length_replicate, hk])
  rw [length_nil] at hclear
  refine ⟨{ b with token := token, result := result, count := b.count + 1 }, ?_, rfl, ?_⟩
  · rw [Buffers.saveToken, strdup_token h]
    dsimp only
    rw [hwrite]
    dsimp only
    rw [hclear]
  · refine ⟨h.state, ?_, Nat.zero_le _, not_mem_nil, rfl, ⟨rest, ?_⟩, ?_⟩
    · change token.cells = _
      rw [htoken, ← replicate_succ']
      rfl
    · change result.cells = (m.result ++ [m.token]).map some ++ rest
      rw [hresult, map_append, append_assoc]
      rfl
    · change b.count + 1 = (m.result ++ [m.token]).length
      rw [length_append, h.count, length_singleton]

theorem saveToken_overruns (hfull : maxTestArgs ≤ m.result.length) : b.saveToken = .error .overrun := by
  have hwrite : b.result.write b.count [some m.token] = none := by
    refine Buffer.write_eq_none ?_
    rw [h.count, length_singleton]
    omega
  rw [Buffers.saveToken, strdup_token h]
  dsimp only
  rw [hwrite]

theorem escaped_tracks (hc : c ≠ 0) : Tracks (b.escaped c) (m.escaped c) := by
  rw [Buffers.escaped, Tokeniser.escaped, h.state]
  exact store_tracks h hc _

theorem separator_tracks : Tracks (b.saveToken.map fun b => { b with offset := 0, state := .whitespace })
      { m.saveToken with state := .whitespace } := by
  by_cases hroom : m.result.length < maxTestArgs
  · obtain ⟨b', hsave, -, hb'⟩ := saveToken_follows h hroom
    refine .follows _ ?_ (hb'.setState .whitespace)
    rw [hsave]
    rfl
  · refine .overruns ?_ fun hwithin => ?_
    · rw [saveToken_overruns h (not_lt.mp hroom)]
      rfl
    · have hlength : (m.result ++ [m.token]).length ≤ maxTestArgs := hwithin.2
      rw [length_append, length_singleton] at hlength
      omega

theorem next_tracks (hc : c ≠ 0) : Tracks (b.next c) (m.next c) := by
  rw [Buffers.next, Tokeniser.next, h.state]
  cases m.state with
  | whitespace =>
    dsimp only
    split_ifs
    · exact .follows b rfl h
    · exact .follows _ rfl (h.setState _)
    · exact .follows _ rfl (h.setState _)
    · exact store_tracks h hc _
  | dquote | squote =>
    dsimp only
    split_ifs
    · exact .follows _ rfl (h.setState _)
    · exact store_tracks h hc _
  | character =>
    dsimp only
    split_ifs
    · exact .follows _ rfl (h.setState _)
    · exact .follows _ rfl (h.setState _)
    · exact separator_tracks h
    · exact store_tracks h hc _

end

end Steps

variable {s : CStr}

section Runs

variable {b : Buffers} {m : Tokeniser}

theorem Buffers.mem_trace (b : Buffers) (s : CStr) : b ∈ b.trace s := by
  cases s with
  | nil => exact mem_singleton_self b
  | cons c rest => cases rest <;> simp [trace]

def traceFrom (r : Except Failure Buffers) (rest : CStr) : List Buffers :=
  match r with
  | .ok b => b.trace rest
  | .error _ => []

theorem Buffers.trace_cons (b : Buffers) (hc : c ≠ backslash) (rest : CStr) :
    b.trace (c :: rest) = b :: traceFrom (b.next c) rest := by
  cases rest <;> simp [trace, hc, traceFrom]

theorem scan_cons (b : Buffers) (hc : c ≠ backslash) (rest : CStr) :
    scan b (c :: rest) = (b.next c).bind fun b => scan b rest := by
  cases rest <;> simp [scan, hc]

structure Follows (r : Except Failure Buffers) (states : List Buffers) (m : Option Tokeniser) : Prop where
  offsets : ∀ x ∈ states, x.offset ≤ maxArgumentLength
  result : match m with
    | some m => ∃ b, r = .ok b ∧ Represents b m
    | none => r = .error .parseError

def Strays (r : Except Failure Buffers) (states : List Buffers) : Prop :=
  (∃ x ∈ states, maxArgumentLength < x.offset) ∨ r = .error .overrun

/-- The buffers follow the tokeniser as long as it is within them. -/
inductive Simulates (r : Except Failure Buffers) (states : List Buffers) (visited : List Tokeniser)
    (m : Option Tokeniser) : Prop
  | follows (hwithin : ∀ x ∈ visited, Within x) (h : Follows r states m)
  | strays (hout : ¬ ∀ x ∈ visited, Within x) (h : Strays r states)

theorem Simulates.turn (h : Represents b m) {r : Except Failure Buffers} {m' : Tokeniser} {rest : CStr}
    (htracks : Tracks r m') (ih : ∀ b', Represents b' m' →
      Simulates (scan b' rest) (b'.trace rest) (m'.trace rest) (ParamString.scan m' rest)) :
    Simulates (r.bind fun b => scan b rest) (b :: traceFrom r rest) (m :: m'.trace rest) (ParamString.scan m' rest) := by
  have hout (hnot : ¬Within m') : ¬ ∀ x ∈ m :: m'.trace rest, Within x := fun hall =>
    hnot (hall m' (mem_cons_of_mem _ (Tokeniser.mem_trace _ _)))
  cases htracks with
  | follows b' hr hb' =>
    subst hr
    cases ih b' hb' with
    | follows hwithin hrest =>
      exact .follows (forall_mem_cons.mpr ⟨h.within, hwithin⟩)
        ⟨forall_mem_cons.mpr ⟨h.offset ▸ h.short, hrest.offsets⟩, hrest.result⟩
    | strays hstray hrest =>
      refine .strays (fun hall => hstray (forall_mem_cons.mp hall).2) (hrest.imp_left ?_)
      rintro ⟨x, hx, hoffset⟩
      exact ⟨x, mem_cons_of_mem _ hx, hoffset⟩
  | overruns hr hnot => exact .strays (hout hnot) (Or.inr (by rw [hr]; rfl))
  | exceeds b' hr hoffset hnot =>
    subst hr
    exact .strays (hout hnot) (Or.inl ⟨b', mem_cons_of_mem _ (b'.mem_trace rest), hoffset⟩)

theorem scan_simulates (h : Represents b m) (hs : 0 ∉ s) :
    Simulates (scan b s) (b.trace s) (m.trace s) (ParamString.scan m s) := by
  fun_induction ParamString.scan m s generalizing b with
  | case1 m =>
    exact .follows (forall_mem_singleton.mpr h.within) ⟨forall_mem_singleton.mpr (h.offset ▸ h.short), b, rfl, h⟩
  | case2 m =>
    exact .follows (forall_mem_singleton.mpr h.within) ⟨forall_mem_singleton.mpr (h.offset ▸ h.short), rfl⟩
  | case3 m c rest ih =>
    simp only [mem_cons, not_or] at hs
    exact .turn h (escaped_tracks h (Ne.symm hs.2.1)) fun b' hb' => ih hb' hs.2.2
  | case4 m c rest hc ih =>
    simp only [mem_cons, not_or] at hs
    rw [scan_cons b hc, b.trace_cons hc, m.trace_cons hc]
    exact .turn h (next_tracks h (Ne.symm hs.1)) fun b' hb' => ih hb' hs.2

end Runs

section Results

variable {b : Buffers} {m : Tokeniser}

inductive Yields (r : Except Failure (List (Option CStr))) : Option (List CStr) → Prop
  | null (hr : r = .error .parseError) : Yields r none
  | array {ws : List CStr} {result : List (Option CStr)} (hr : r = .ok result)
      (hwords : nullTerminated ws <+: result) : Yields r (some ws)

section

variable (h : Represents b m) (hstate : ¬(m.state = .dquote ∨ m.state = .squote))
include h hstate

theorem finish_yields (hroom : m.result.length + 1 < maxTestArgs) : Yields b.finish (some (m.result ++ [m.token])) := by
  obtain ⟨b', hsave, -, hb'⟩ := saveToken_follows h (Nat.lt_of_succ_lt hroom)
  obtain ⟨rest, hrest⟩ := hb'.result
  have hcells : b'.result.cells = (m.result ++ [m.token]).map some ++ rest := hrest
  have hcount : b'.count = (m.result ++ [m.token]).length := hb'.count
  have hlength := b'.result.length_eq
  rw [hcells, length_append, length_map, length_append, length_singleton] at hlength
  obtain ⟨old, rest, rfl⟩ := exists_cons_of_length_pos (by omega : 0 < rest.length)
  obtain ⟨result, hwrite, hresult⟩ := Buffer.write_split [none]
    (show b'.result.cells = (m.result ++ [m.token]).map some ++ ([old] ++ rest) from hcells) rfl
  rw [length_map, ← hcount] at hwrite
  refine .array (?_ : b.finish = .ok result.cells) ⟨rest, ?_⟩
  · have hend : b'.terminate = .ok result.cells := by rw [Buffers.terminate, hwrite]
    rw [Buffers.finish, h.state, if_neg hstate, hsave]
    exact hend
  · rw [hresult, nullTerminated, append_assoc]

theorem finish_overruns (hfull : maxTestArgs ≤ m.result.length + 1) : b.finish = .error .overrun := by
  rw [Buffers.finish, h.state, if_neg hstate]
  by_cases hroom : m.result.length < maxTestArgs
  · obtain ⟨b', hsave, -, hb'⟩ := saveToken_follows h hroom
    have hcount : b'.count = (m.result ++ [m.token]).length := hb'.count
    have hwrite : b'.result.write b'.count [none] = none := by
      refine Buffer.write_eq_none ?_
      rw [hcount, length_append, length_singleton, length_singleton]
      omega
    have hend : b'.terminate = .error .overrun := by rw [Buffers.terminate, hwrite]
    rw [hsave]
    exact hend
  · rw [saveToken_overruns h (not_lt.mp hroom)]
    rfl

end

def LoopFits (s : CStr) : Prop :=
  (∀ g ∈ groups (marks.items s), (literals g).length ≤ maxArgumentLength) ∧ (completed (marks.items s)).length ≤ maxTestArgs

theorem loop_follows (malloced : Buffer (Option CStr) maxTestArgs) (hs : 0 ∉ s) (hfits : LoopFits s) :
    Follows (scan (start malloced) s) ((start malloced).trace s) ((marks.ending s).openQuote.map fun q =>
        tokeniserAt q (lastRun (marks.items s)) (completed (marks.items s))) := by
  rw [← scan_start]
  cases scan_simulates (represents_start malloced) hs with
  | follows _ h => exact h
  | strays hout => exact absurd ((trace_start s _ _).mpr hfits) hout

theorem parseParamString_cons (malloced : Buffer (Option CStr) maxTestArgs) (hne : s ≠ []) :
    parseParamString malloced (some s) = (scan (start malloced) s).bind Buffers.finish := by
  obtain ⟨c, s, rfl⟩ := exists_cons_of_ne_nil hne
  rfl

section

variable (malloced : Buffer (Option CStr) maxTestArgs) {s : CStr} (hs : 0 ∉ s) (hfits : LoopFits s)

include hs hfits

theorem parseParamString_error (hend : marks.ending s ≠ .closed) : parseParamString malloced (some s) = .error .parseError := by
  have hne : s ≠ [] := by
    rintro rfl
    exact hend rfl
  have hloop := (loop_follows malloced hs hfits).result
  rw [parseParamString_cons malloced hne]
  cases hending : marks.ending s with
  | closed => exact absurd hending hend
  | inQuote q =>
    rw [hending] at hloop
    obtain ⟨b, hscan, hb⟩ := hloop
    rw [hscan]
    refine if_pos ?_
    rw [hb.state]
    exact (tokeniserAt_quote (some q) _ _).mpr (Option.some_ne_none q)
  | loneEscape =>
    rw [hending] at hloop
    rw [show scan (start malloced) s = _ from hloop]
    rfl

section

variable (hne : s ≠ []) (hend : marks.ending s = .closed)
include hne hend

theorem exists_finish : ∃ b, parseParamString malloced (some s) = Buffers.finish b ∧
      Represents b (tokeniserAt none (lastRun (marks.items s)) (completed (marks.items s))) := by
  have hloop := (loop_follows malloced hs hfits).result
  rw [hend] at hloop
  obtain ⟨b, hscan, hb⟩ := hloop
  refine ⟨b, ?_, hb⟩
  rw [parseParamString_cons malloced hne, hscan]
  rfl

theorem parseParamString_words (hroom : (completed (marks.items s)).length + 1 < maxTestArgs) :
    Yields (parseParamString malloced (some s)) (some (completed (marks.items s) ++ [literals (lastRun (marks.items s))])) := by
  obtain ⟨b, hfinish, hb⟩ := exists_finish malloced hs hfits hne hend
  rw [hfinish]
  exact finish_yields hb (mt (tokeniserAt_quote none _ _).mp (not_not.mpr rfl)) hroom

theorem parseParamString_overruns (hfull : maxTestArgs ≤ (completed (marks.items s)).length + 1) :
    parseParamString malloced (some s) = .error .overrun := by
  obtain ⟨b, hfinish, hb⟩ := exists_finish malloced hs hfits hne hend
  rw [hfinish]
  exact finish_overruns hb (mt (tokeniserAt_quote none _ _).mp (not_not.mpr rfl)) hfull

end

end

end Results

section Words

theorem nullTerminated_inj {a b : List CStr} {result : List (Option CStr)}
    (ha : nullTerminated a <+: result) (hb : nullTerminated b <+: result) : a = b := by
  induction a generalizing b result with
  | nil =>
    cases b with
    | nil => rfl
    | cons w b =>
      obtain ⟨rest, rfl⟩ := ha
      obtain ⟨rest', hrest⟩ := hb
      simp [nullTerminated] at hrest
  | cons v a ih =>
    obtain ⟨rest, rfl⟩ := ha
    obtain ⟨rest', hrest⟩ := hb
    cases b with
    | nil => simp [nullTerminated] at hrest
    | cons w b =>
      obtain ⟨hvw, htail⟩ := cons.inj hrest
      rw [ih (prefix_append _ rest) ⟨rest', htail⟩, Option.some.inj hvw]

theorem Yields.inj {r : Except Failure (List (Option CStr))} {a b : Option (List CStr)}
    (ha : Yields r a) (hb : Yields r b) : a = b := by
  cases ha with
  | null ha =>
    cases hb with
    | null => rfl
    | array hb => cases ha.symm.trans hb
  | array ha hwords =>
    cases hb with
    | null hb => cases ha.symm.trans hb
    | array hb hwords' =>
      obtain rfl := Except.ok.inj (ha.symm.trans hb)
      rw [nullTerminated_inj hwords hwords']

structure WithinLimits (s : CStr) : Prop where
  length : ∀ g ∈ groups (marks.items s), (literals g).length ≤ maxArgumentLength
  count : (words (marks.items s)).length < maxTestArgs

def EndsInSeparator (s : CStr) : Prop :=
  marks.ending s = .closed ∧ ∃ front, marks.items s = front ++ [.separator]

theorem WithinLimits.loopFits (h : WithinLimits s) : LoopFits s := by
  refine ⟨h.length, ?_⟩
  have hcount := h.count
  rw [words_eq, length_append] at hcount
  omega

theorem items_ne_nil (hne : s ≠ []) (hend : marks.ending s = .closed) : marks.items s ≠ [] := by
  obtain ⟨c, s, rfl⟩ := exists_cons_of_ne_nil hne
  rw [Marks.ending] at hend
  rw [Marks.items]
  by_cases hc : c = backslash
  · cases s with
    | nil =>
      rw [hc] at hend
      cases hend
    | cons c' s =>
      rw [hc, show backslash = marks.escape from rfl, marks.read_escape]
      exact cons_ne_nil _ _
  · rw [marks.read_cons none hc]
    exact cons_ne_nil _ _

theorem lastRun_ne_nil (hne : s ≠ []) (hend : marks.ending s = .closed)
    (hsep : ¬ EndsInSeparator s) : lastRun (marks.items s) ≠ [] := by
  intro hlast
  rcases (lastRun_eq_nil_iff _).mp hlast with hnil | hfront
  · exact items_ne_nil hne hend hnil
  · exact hsep ⟨hend, hfront⟩

theorem parseParamString_of_lastRun (malloced : Buffer (Option CStr) maxTestArgs) (hs : 0 ∉ s)
    (hlimits : WithinLimits s) (hne : s ≠ []) (hend : marks.ending s = .closed)
    (hlast : lastRun (marks.items s) ≠ []) :
    Yields (parseParamString malloced (some s)) (some (words (marks.items s))) := by
  have hwords : words (marks.items s) = completed (marks.items s) ++ [literals (lastRun (marks.items s))] := by
    rw [words_eq, wordsOf_singleton hlast]
  have hcount := hlimits.count
  rw [hwords, length_append, length_singleton] at hcount
  rw [hwords]
  exact parseParamString_words malloced hs hlimits.loopFits hne hend hcount

theorem not_yields_of_separator (malloced : Buffer (Option CStr) maxTestArgs) (hs : 0 ∉ s)
    (hlimits : WithinLimits s) (hsep : EndsInSeparator s) :
    ¬ Yields (parseParamString malloced (some s)) (marks.split s) := by
  obtain ⟨hend, hfront⟩ := hsep
  have hlast : lastRun (marks.items s) = [] := (lastRun_eq_nil_iff _).mpr (Or.inr hfront)
  have hne : s ≠ [] := by
    rintro rfl
    obtain ⟨front, hfront⟩ := hfront
    simp [Marks.items, Marks.read] at hfront
  have hwords : words (marks.items s) = completed (marks.items s) := by
    rw [words_eq, hlast]
    exact append_nil _
  rw [Marks.split, if_pos hend, hwords]
  intro hyields
  by_cases hroom : (completed (marks.items s)).length + 1 < maxTestArgs
  · have hwords' := Yields.inj hyields (parseParamString_words malloced hs hlimits.loopFits hne hend hroom)
    simpa using congrArg (Option.map length) hwords'
  · have hoverrun := parseParamString_overruns malloced hs hlimits.loopFits hne hend (not_lt.mp hroom)
    cases hyields with
    | array hresult => cases hoverrun.symm.trans hresult

theorem parseParamString_splits_iff (malloced : Buffer (Option CStr) maxTestArgs) (s : CStr)
    (hs : 0 ∉ s) (hlimits : WithinLimits s) :
    Yields (parseParamString malloced (some s)) (marks.split s) ↔ ¬ EndsInSeparator s := by
  refine ⟨fun h hsep => not_yields_of_separator malloced hs hlimits hsep h, fun hsep => ?_⟩
  rw [Marks.split]
  split_ifs with hend
  · by_cases hne : s = []
    · subst hne
      exact .array rfl prefix_rfl
    · exact parseParamString_of_lastRun malloced hs hlimits hne hend (lastRun_ne_nil hne hend hsep)
  · exact .null (parseParamString_error malloced hs hlimits.loopFits hend)

def mallocedArray : Buffer (Option CStr) maxTestArgs := .fill _ none

theorem parseParamString_splits_quoted : Yields (parseParamString mallocedArray (some (cstr "-c \"a b\"  d\\ e ''")))
      (some [cstr "-c", cstr "a b", cstr "d e", []]) := by
  have hlimits : WithinLimits (cstr "-c \"a b\"  d\\ e ''") :=
    ⟨by decide +kernel, by decide +kernel⟩
  have hsplit : marks.split (cstr "-c \"a b\"  d\\ e ''") = some [cstr "-c", cstr "a b", cstr "d e", []] := by decide +kernel
  rw [← hsplit]
  refine (parseParamString_splits_iff mallocedArray _ (by decide +kernel) hlimits).mpr ?_
  rintro ⟨-, front, hfront⟩
  have hlast : (marks.items (cstr "-c \"a b\"  d\\ e ''")).getLast? = some .separator := by
    rw [hfront, getLast?_concat]
  exact absurd hlast (by decide +kernel)

theorem parseParamString_trailing_blank : marks.split (cstr "-c ") = some [cstr "-c"] ∧
      Yields (parseParamString mallocedArray (some (cstr "-c "))) (some [cstr "-c", []]) ∧
      ¬ Yields (parseParamString mallocedArray (some (cstr "-c "))) (marks.split (cstr "-c ")) := by
  have hlimits : WithinLimits (cstr "-c ") := ⟨by decide +kernel, by decide +kernel⟩
  have hsep : EndsInSeparator (cstr "-c ") :=
    ⟨by decide +kernel, [.literal 45, .literal 99], by decide +kernel⟩
  have htext : 0 ∉ cstr "-c " := by decide +kernel
  have hyields := parseParamString_words mallocedArray htext hlimits.loopFits (by decide +kernel) hsep.1 (by decide +kernel)
  have hwords : completed (marks.items (cstr "-c ")) ++
      [literals (lastRun (marks.items (cstr "-c ")))] = [cstr "-c", []] := by decide +kernel
  rw [hwords] at hyields
  exact ⟨by decide +kernel, hyields, not_yields_of_separator mallocedArray htext hlimits hsep⟩

theorem marks_renders : marks.Renders singleQuote space where
  quote_plain := by decide
  quote_isQuote := rfl
  blank_plain := by decide
  blank_isBlank := rfl
  blank_isQuote := rfl

theorem zero_notMem_quoteWord {w : CStr} (hw : 0 ∉ w) : 0 ∉ marks.quoteWord singleQuote w := by
  intro hmem
  rw [Marks.quoteWord] at hmem
  split_ifs at hmem
  · exact absurd hmem (by decide)
  · obtain ⟨c, hc, hmem⟩ := mem_flatMap.mp hmem
    rcases mem_cons.mp hmem with hzero | hmem
    · exact absurd hzero (by decide)
    · exact hw ((mem_singleton.mp hmem) ▸ hc)

theorem zero_notMem_render {ws : List CStr} (h : ∀ w ∈ ws, 0 ∉ w) : 0 ∉ marks.render singleQuote space ws := by
  rw [Marks.render]
  induction ws with
  | nil => exact not_mem_nil
  | cons w ws ih =>
    have hw := zero_notMem_quoteWord (h w (mem_cons_self ..))
    have hws := ih fun v hv => h v (mem_cons_of_mem _ hv)
    cases ws with
    | nil =>
      rw [map_singleton, intercalate_singleton]
      exact hw
    | cons v ws =>
      rw [map_cons, map_cons, intercalate_cons_cons, mem_append, mem_append, not_or, not_or]
      exact ⟨⟨hw, by decide⟩, hws⟩

theorem parseParamString_render (malloced : Buffer (Option CStr) maxTestArgs) {ws : List CStr}
    (hws : ws ≠ []) (hcount : ws.length < maxTestArgs)
    (hwords : ∀ w ∈ ws, 0 ∉ w ∧ w.length < maxArgumentLength) :
    Yields (parseParamString malloced (some (marks.render singleQuote space ws))) (some ws) := by
  obtain ⟨hend, hsplit, hlast⟩ := marks_renders.read_render hws
  have hlimits : WithinLimits (marks.render singleQuote space ws) := by
    refine ⟨fun g hg => ?_, by rwa [hsplit]⟩
    by_cases hne : g = []
    · rw [hne]
      exact Nat.zero_le _
    · exact (hwords _ (hsplit ▸ mem_words hg hne)).2.le
  have hne : marks.render singleQuote space ws ≠ [] := by
    intro hnil
    rw [hnil] at hlast
    exact hlast rfl
  have hyields := parseParamString_of_lastRun malloced (zero_notMem_render fun w hw => (hwords w hw).1) hlimits hne hend hlast
  rwa [hsplit] at hyields

theorem parseParamString_render_bytes : Yields (parseParamString mallocedArray
      (some (marks.render singleQuote space [cstr "a b", [], [39, 92, 255]])))
      (some [cstr "a b", [], [39, 92, 255]]) :=
  parseParamString_render mallocedArray (cons_ne_nil _ _) (by decide +kernel) (by decide +kernel)

def OverLong (s : CStr) : Prop :=
  (∃ g ∈ groups (marks.items s), maxArgumentLength < (literals g).length) ∨ maxTestArgs ≤ (words (marks.items s)).length

def StaysInBuffers (malloced : Buffer (Option CStr) maxTestArgs) (s : CStr) : Prop :=
  (∀ b ∈ (start malloced).trace s, b.offset ≤ maxArgumentLength) ∧ parseParamString malloced (some s) ≠ .error .overrun ∧
    (OverLong s → parseParamString malloced (some s) = .error .parseError)

/-- The words fit, with the one the code adds at the end and the NULL. -/
def FitsBuffers (s : CStr) : Prop :=
  LoopFits s ∧ (marks.ending s = .closed → (completed (marks.items s)).length + 1 < maxTestArgs)

theorem staysInBuffers_of_fits (malloced : Buffer (Option CStr) maxTestArgs) (hs : 0 ∉ s)
    (hfits : FitsBuffers s) : StaysInBuffers malloced s := by
  obtain ⟨hloop, hcount⟩ := hfits
  refine ⟨(loop_follows malloced hs hloop).offsets, ?_⟩
  by_cases hend : marks.ending s = .closed
  · have hshort : ¬ OverLong s := by
      rintro (⟨g, hg, hlong⟩ | hmany)
      · exact absurd (hloop.1 g hg) (not_le.mpr hlong)
      · have hlength : (wordsOf [lastRun (marks.items s)]).length ≤ 1 := by
          rw [wordsOf, length_map]
          exact length_filter_le _ _
        have hroom := hcount hend
        rw [words_eq, length_append] at hmany
        omega
    refine ⟨?_, fun hlong => absurd hlong hshort⟩
    by_cases hne : s = []
    · subst hne
      simp [parseParamString]
    · cases parseParamString_words malloced hs hloop hne hend (hcount hend) with
      | array hresult => simp [hresult]
  · have herror := parseParamString_error malloced hs hloop hend
    exact ⟨by simp [herror], fun _ => herror⟩

theorem fits_of_staysInBuffers {malloced : Buffer (Option CStr) maxTestArgs} (hs : 0 ∉ s)
    (h : StaysInBuffers malloced s) : FitsBuffers s := by
  obtain ⟨hoffsets, hreturns, -⟩ := h
  have hloop : LoopFits s := by
    cases scan_simulates (represents_start malloced) hs with
    | follows hwithin => exact (trace_start s _ _).mp hwithin
    | strays _ hstray =>
      obtain ⟨b, hb, hoffset⟩ | hoverrun := hstray
      · exact absurd (hoffsets b hb) (not_le.mpr hoffset)
      · have hne : s ≠ [] := by
          rintro rfl
          cases hoverrun
        refine absurd ?_ hreturns
        rw [parseParamString_cons malloced hne, hoverrun]
        rfl
  refine ⟨hloop, fun hend => ?_⟩
  by_contra hfull
  by_cases hne : s = []
  · subst hne
    exact hfull (by decide)
  · exact hreturns (parseParamString_overruns malloced hs hloop hne hend (not_lt.mp hfull))

theorem staysInBuffers_iff (malloced : Buffer (Option CStr) maxTestArgs) (s : CStr) (hs : 0 ∉ s) :
    StaysInBuffers malloced s ↔ FitsBuffers s :=
  ⟨fits_of_staysInBuffers hs, staysInBuffers_of_fits malloced hs⟩

theorem letters_stay_in_buffers : StaysInBuffers mallocedArray (letters 127) := by
  refine (staysInBuffers_iff mallocedArray (letters 127) (by decide +kernel)).mpr ⟨⟨?_, ?_⟩, fun _ => ?_⟩ <;>
  decide +kernel

end Words

section Remote

structure Control where
  type : Option SingleTest.ControlType
  server : Option SingleTest.ServerRequest

def parseServerStart (malloced : Buffer (Option CStr) maxTestArgs) (msg : Option Control) :
    Option (UInt64 × Except Failure (List (Option CStr))) :=
  match msg with
  | some ⟨some .server, some ⟨some testType, params⟩⟩ =>
    some (testType, parseParamString malloced params)
  | _ => none

def longWord : CStr := replicate 1025 97

theorem longWord_leaves_buffers : parseServerStart mallocedArray (some ⟨some .server, some ⟨some 6, some longWord⟩⟩) =
        some (6, parseParamString mallocedArray (some longWord)) ∧
      ¬ StaysInBuffers mallocedArray longWord := by
  refine ⟨rfl, fun h => ?_⟩
  have hplain : ∀ c ∈ longWord, Plain c := fun c hc => by
    rw [eq_of_mem_replicate hc]
    decide
  have htext : 0 ∉ longWord := fun hmem => absurd (eq_of_mem_replicate hmem) (by decide)
  obtain ⟨⟨hlength, -⟩, -⟩ := fits_of_staysInBuffers htext h
  have hrun : Item.separator ∉ longWord.map Item.literal := by simp
  rw [items_plain hplain, groups_of_notMem hrun, forall_mem_singleton, literals, filterMap_map, longWord] at hlength
  have hsymbols : (Item.symbol ∘ Item.literal : UInt8 → Option UInt8) = some := rfl
  rw [hsymbols, filterMap_some, length_replicate] at hlength
  exact absurd hlength (by decide)

end Remote

end Amplet.ParamBuffers
