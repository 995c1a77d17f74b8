import Amplet.AddressTrie
import Amplet.Bytes

/-!
# Answers of the whois server

Embedding of `add_parsed_line` and `process_buffer` in `src/common/asn.c`. The buffer is
the list of the bytes before `offset`. `strtok_r` writes into the buffer, so it returns
the buffer with its token. A crash or a failed assertion is `none`.
-/

namespace Amplet.AsnLines
open Bytes SocketAddress AddressTrie Delimited
open List hiding Vector

def bar : UInt8 := 124

def stringAt (mem : CStr) (pos : ℕ) : CStr := (mem.drop pos).takeWhile (· ≠ 0)

structure Token where
  start : ℕ
  mem : CStr
  saved : ℕ

def strtokR (delim : UInt8) (mem : CStr) (pos : ℕ) : Option Token :=
  let s := stringAt mem pos
  let start := pos + (s.takeWhile (· = delim)).length
  let stop := start + ((s.dropWhile (· = delim)).takeWhile (· ≠ delim)).length
  if s.dropWhile (· = delim) = [] then none
  else if stop < pos + s.length then some ⟨start, mem.set stop 0, stop + 1⟩
  else some ⟨start, mem, stop⟩

structure Inet where
  pton4 : CStr → Option (BitVec 32)
  pton6 : CStr → Option (Vector (BitVec 16) 8)
  ntop : SockAddr → CStr

def Inet.parse (inet : Inet) (text : CStr) : Option SockAddr :=
  match inet.pton4 text with
  | some x => some (.inet x)
  | none => (inet.pton6 text).map .inet6

def prefixFor : SockAddr → UInt8
  | .inet _ => 24
  | _ => 64

def addParsedLine (inet : Inet) (mem : CStr) (line : ℕ) : Option (CStr × SockAddr × ℤ) :=
  match strtokR bar mem line with
  | none => none
  | some as =>
    match strtokR bar as.mem as.saved with
    | none => none
    | some field =>
      match strtokR space field.mem field.start with
      | none => none
      | some name =>
        (inet.parse (stringAt name.mem name.start)).map fun address =>
          (name.mem, address, atoi (stringAt as.mem as.start))

structure Parsing where
  result : IpTrie
  info : Option IpTrie
  buffer : CStr
  outstanding : Option ℤ

def isHeader (line : CStr) : Bool := line.take 4 = cstr "Bulk" || line.take 5 = cstr "Error"

def processLine (e : Endian) (inet : Inet) (s : Parsing) : Option Parsing :=
  match strtokR newline s.buffer 0 with
  | none => none
  | some token =>
    let line := stringAt token.mem token.start
    let linelen := line.length + 1
    if isHeader line then some { s with buffer := token.mem.drop linelen }
    else
      (addParsedLine inet token.mem token.start).map fun (mem, address, as) =>
        { result := iptrieAdd e s.result address (prefixFor address) as
          info := s.info.map fun trie => iptrieAdd e trie address (prefixFor address) as
          buffer := mem.drop linelen
          outstanding := s.outstanding.map (· - 1) }

/-- Each turn removes a byte, so the length of the buffer is fuel enough. -/
def processBuffer (e : Endian) (inet : Inet) : ℕ → Parsing → Option Parsing
  | 0, s => some s
  | n + 1, s =>
    if newline ∈ stringAt s.buffer 0 then (processLine e inet s).bind (processBuffer e inet n)
    else some s

section Tokens

variable {delim : UInt8} {mem skipped token rest post : CStr} {pos : ℕ}

theorem stringAt_eq {before text : CStr} (htext : 0 ∉ text) (hpost : ∀ b ∈ post.head?, b = 0)
    (hmem : mem = before ++ (text ++ post)) : stringAt mem before.length = text := by
  rw [stringAt, hmem, drop_left, (takeWhile_ne_append htext hpost).1]

theorem takeWhile_skipped (hskipped : ∀ b ∈ skipped, b = delim) (text : CStr) (htext : ∀ b ∈ text.head?, b ≠ delim) :
    (skipped ++ text).takeWhile (· = delim) = skipped ∧ (skipped ++ text).dropWhile (· = delim) = text :=
  takeWhile_append_eq (fun b hb => decide_eq_true (hskipped b hb)) fun b hb => decide_eq_false (htext b hb)

theorem strtokR_token (delim : UInt8) (before skipped token rest post : CStr) (hskipped : ∀ b ∈ skipped, b = delim)
    (htoken : token ≠ []) (hdelim : delim ∉ token) (htext : 0 ∉ skipped ++ (token ++ rest))
    (hrest : ∀ b ∈ rest.head?, b = delim) (hpost : ∀ b ∈ post.head?, b = 0)
    (hmem : mem = before ++ (skipped ++ (token ++ rest) ++ post)) :
    ∃ cut, strtokR delim mem before.length = some ⟨(before ++ skipped).length, before ++ skipped ++ (token ++ (cut ++ post)),
          (before ++ skipped ++ token ++ cut.take 1).length⟩ ∧
      cut.tail = rest.tail ∧ cut.length = rest.length ∧ ∀ b ∈ (cut ++ post).head?, b = 0 := by
  obtain ⟨b, token, rfl⟩ := exists_cons_of_ne_nil htoken
  have hb : b ≠ delim := fun heq => hdelim (heq ▸ mem_cons_self ..)
  obtain ⟨htake, hdrop⟩ := takeWhile_skipped hskipped (b :: token ++ rest) (by simpa using hb)
  have hname := (takeWhile_ne_append hdelim hrest).1
  have hset : mem = before ++ skipped ++ (b :: token) ++ (rest ++ post) := by
    simp [hmem]
  simp only [strtokR, stringAt_eq htext hpost hmem, htake, hdrop, hname]
  rw [if_neg (by simp), ← length_append, ← length_append]
  cases rest with
  | nil =>
    refine ⟨[], ?_, rfl, rfl, hpost⟩
    rw [if_neg (by simp only [length_append, length_nil]; omega), hset]
    simp
  | cons d rest =>
    refine ⟨0 :: rest, ?_, rfl, rfl, by simp⟩
    rw [if_pos (by simp only [length_append, length_cons]; omega), hset, set_append_right _ _ le_rfl]
    simp [Nat.add_assoc]

theorem stringAt_nil (h : mem.length ≤ pos) : stringAt mem pos = [] := by
  rw [stringAt, drop_eq_nil_of_le h]
  rfl

theorem exists_stringAt (h : pos ≤ mem.length) : ∃ before post,
    mem = before ++ (stringAt mem pos ++ post) ∧ before.length = pos ∧ 0 ∉ stringAt mem pos ∧ ∀ b ∈ post.head?, b = 0 := by
  obtain ⟨text, post, hdrop, htext, hpost⟩ := exists_split_at 0 (mem.drop pos)
  have hmem : mem = mem.take pos ++ (text ++ post) := by
    rw [← hdrop, take_append_drop]
  have hlength : (mem.take pos).length = pos := length_take_of_le h
  have hstring : stringAt mem pos = text := by
    have hat := stringAt_eq htext hpost hmem
    rwa [hlength] at hat
  rw [hstring]
  exact ⟨mem.take pos, post, hmem, hlength, htext, hpost⟩

structure Takes (delim : UInt8) (mem : CStr) (pos : ℕ) (word : CStr) (more : List CStr)
    (t : Token) : Prop where
  start : t.start = pos + ((stringAt mem pos).takeWhile (· = delim)).length
  token : stringAt t.mem t.start = word
  text : strtok [delim] (stringAt mem pos) = some (word, stringAt t.mem t.saved)
  next : tokens delim (stringAt t.mem t.saved) = more
  length : t.mem.length = mem.length
  frame : ∀ n, t.start + word.length < n ∨ pos + (stringAt mem pos).length ≤ n → t.mem.drop n = mem.drop n
  stop : t.start + word.length ≤ pos + (stringAt mem pos).length
  saved : t.saved + (stringAt t.mem t.saved).length ≤ pos + (stringAt mem pos).length

theorem strtokR_none (h : tokens delim (stringAt mem pos) = []) : strtokR delim mem pos = none := by
  have hnil : (stringAt mem pos).dropWhile (· = delim) = [] := by
    simpa using tokens_eq_nil_iff.mp h
  rw [strtokR]
  exact if_pos hnil

theorem drop_piece {piece piece' : CStr} (before post : CStr) (htail : piece.tail = piece'.tail)
    (hlength : piece.length = piece'.length) {n : ℕ}
    (hn : before.length < n ∨ before.length + piece.length ≤ n) :
    (before ++ (piece ++ post)).drop n = (before ++ (piece' ++ post)).drop n := by
  have hdrop : ∀ xs : CStr, (before ++ xs).drop n = xs.drop (n - before.length) := fun xs => by
    rw [drop_append, drop_eq_nil_of_le (by omega), nil_append]
  rw [hdrop, hdrop]
  cases piece with
  | nil => rw [eq_nil_of_length_eq_zero hlength.symm]
  | cons b piece =>
    cases piece' with
    | nil => cases hlength
    | cons b' piece' =>
      obtain rfl : piece = piece' := htail
      obtain ⟨k, hk⟩ := Nat.exists_eq_add_of_lt (show before.length < n by
        rw [length_cons] at hn
        omega)
      rw [show n - before.length = k + 1 by omega]
      rfl

theorem strtokR_some {more : List CStr} (h : tokens delim (stringAt mem pos) = token :: more) :
    ∃ t, strtokR delim mem pos = some t ∧ Takes delim mem pos token more t := by
  rcases Nat.lt_or_ge mem.length pos with hpos | hpos
  · rw [stringAt_nil hpos.le, tokens_nil] at h
    cases h
  obtain ⟨before, post, hmem, rfl, hzero, hpost⟩ := exists_stringAt hpos
  obtain ⟨skipped, rest, htext, hskipped, hne, hdelim, hrest, rfl⟩ := tokens_eq_cons h
  rw [htext] at hmem hzero
  obtain ⟨cut, htoken, htail, hlength, hhead⟩ :=
    strtokR_token delim before skipped token rest post hskipped hne hdelim hzero hrest hpost hmem
  refine ⟨_, htoken, ?_⟩
  have hzeroToken : 0 ∉ token := fun hmem => hzero (by simp [hmem])
  have hzeroTail : 0 ∉ rest.tail := fun hmem => hzero (by simp [mem_of_mem_tail hmem])
  have hstart : (skipped ++ (token ++ rest)).takeWhile (· = delim) = skipped := by
    refine (takeWhile_skipped hskipped _ fun b hb => ?_).1
    obtain ⟨c, token, rfl⟩ := exists_cons_of_ne_nil hne
    obtain rfl : c = b := by simpa using hb
    exact fun heq => hdelim (heq ▸ mem_cons_self ..)
  have hcut : cut = cut.take 1 ++ rest.tail := by
    rw [← htail, ← drop_one, take_append_drop]
  have hsaved : stringAt (before ++ skipped ++ (token ++ (cut ++ post)))
      (before ++ skipped ++ token ++ cut.take 1).length = rest.tail := by
    refine stringAt_eq hzeroTail hpost ?_
    nth_rewrite 1 [hcut]
    simp
  constructor
  · simp [htext, hstart]
  · exact stringAt_eq hzeroToken hhead rfl
  · have hfirst : FirstToken [delim] skipped token rest :=
      ⟨by simpa using hskipped, fun b hb heq => hdelim (mem_singleton.mp heq ▸ hb),
        by simpa using hrest, fun hnil => absurd hnil hne⟩
    rw [htext, hfirst.strtok_eq hne, hsaved, drop_one]
  · rw [hsaved]
  · rw [hmem]
    simp [hlength]
  · intro n hn
    rw [htext] at hn
    have hdrop := drop_piece (before ++ skipped ++ token) post htail hlength (n := n) (by
      simp only [length_append] at hn ⊢
      omega)
    simpa only [hmem, append_assoc] using hdrop
  · simp only [htext, length_append]
    omega
  · dsimp only
    rw [hsaved, htext]
    simp only [length_append, length_tail, length_take, hlength]
    omega

/-- The token in the memory is the one that `strtok` takes from the text there. -/
theorem strtok_stringAt (delim : UInt8) (mem : CStr) (pos : ℕ) : strtok [delim] (stringAt mem pos) =
      (strtokR delim mem pos).map fun t => (stringAt t.mem t.start, stringAt t.mem t.saved) := by
  cases htokens : tokens delim (stringAt mem pos) with
  | nil =>
    rw [strtokR_none htokens]
    exact strtok_eq_none_iff.mpr (by simpa using tokens_eq_nil_iff.mp htokens)
  | cons word more =>
    obtain ⟨t, ht, htakes⟩ := strtokR_some htokens
    rw [ht, Option.map_some, htakes.token, htakes.text]

theorem Takes.of_some {t : Token} (h : strtokR delim mem pos = some t) : ∃ word more, Takes delim mem pos word more t := by
  cases htokens : tokens delim (stringAt mem pos) with
  | nil =>
    rw [strtokR_none htokens] at h
    cases h
  | cons word more =>
    obtain ⟨t', ht', htakes⟩ := strtokR_some htokens
    rw [ht'] at h
    cases h
    exact ⟨word, more, htakes⟩

end Tokens

/-! The strings of a text are the same where a NUL and anything else follows the text. -/

section Terminated

variable {delim : UInt8} {text junk : CStr} {pos : ℕ}

theorem stringAt_terminated (junk : CStr) (h : pos ≤ text.length) : stringAt (text ++ 0 :: junk) pos = stringAt text pos := by
  obtain ⟨before, post, htext, rfl, hzero, hpost⟩ := exists_stringAt h
  have hhead : ∀ b ∈ (post ++ 0 :: junk).head?, b = 0 := by
    cases post with
    | nil => simp
    | cons b post => simpa using hpost b rfl
  refine stringAt_eq hzero hhead ?_
  nth_rewrite 1 [htext]
  simp

theorem stringAt_end_le (h : pos ≤ text.length) : pos + (stringAt text pos).length ≤ text.length := by
  have hle := (takeWhile_sublist (fun b : UInt8 => decide (b ≠ 0)) (l := text.drop pos)).length_le
  rw [length_drop] at hle
  rw [stringAt]
  omega

def Token.extend (t : Token) (behind : CStr) : Token := { t with mem := t.mem ++ behind }

theorem strtokR_terminated (delim : UInt8) (junk : CStr) (h : pos ≤ text.length) :
    strtokR delim (text ++ 0 :: junk) pos = (strtokR delim text pos).map (·.extend (0 :: junk)) := by
  have hend := stringAt_end_le h
  simp only [strtokR, stringAt_terminated junk h]
  split_ifs with hnone hstop
  · rfl
  · rw [Option.map_some, Token.extend, set_append_left _ _ (by omega)]
  · rfl

theorem addParsedLine_terminated (inet : Inet) (junk : CStr) (h : pos ≤ text.length) :
    addParsedLine inet (text ++ 0 :: junk) pos = (addParsedLine inet text pos).map fun x => (x.1 ++ 0 :: junk, x.2) := by
  have hend := stringAt_end_le h
  rw [addParsedLine, addParsedLine, strtokR_terminated bar junk h]
  cases has : strtokR bar text pos with
  | none => rfl
  | some as =>
    obtain ⟨number, fields, htakes₁⟩ := Takes.of_some has
    have hstart₁ := htakes₁.stop
    have hsaved := htakes₁.saved
    have hlength₁ := htakes₁.length
    simp only [Option.map_some, Token.extend]
    rw [strtokR_terminated bar junk (by omega)]
    cases hfield : strtokR bar as.mem as.saved with
    | none => rfl
    | some field =>
      obtain ⟨content, rest, htakes₂⟩ := Takes.of_some hfield
      have hstart₂ := htakes₂.stop
      have hlength₂ := htakes₂.length
      simp only [Option.map_some, Token.extend]
      rw [strtokR_terminated space junk (by omega)]
      cases hname : strtokR space field.mem field.start with
      | none => rfl
      | some name =>
        obtain ⟨address, names, htakes₃⟩ := Takes.of_some hname
        have hstart₃ := htakes₃.stop
        have hlength₃ := htakes₃.length
        have hend₃ : field.start + (stringAt field.mem field.start).length ≤ field.mem.length :=
          stringAt_end_le (by omega)
        simp only [Option.map_some, Token.extend]
        rw [stringAt_terminated junk (by omega), stringAt_terminated junk (by omega), Option.map_map]
        rfl

end Terminated

/-- The first two fields between bars, the second one without the spaces around it. -/
def parsedLine (inet : Inet) (line : CStr) : Option (SockAddr × ℤ) :=
  match tokens bar line with
  | number :: field :: _ =>
    match tokens space field with
    | name :: _ => (inet.parse name).map fun address => (address, atoi number)
    | [] => none
  | _ => none

section Parsed

variable {inet : Inet} {mem : CStr} {line : ℕ} {number field name : CStr} {fields names : List CStr}

theorem addParsedLine_few (h : (tokens bar (stringAt mem line)).length < 2) : addParsedLine inet mem line = none := by
  rw [addParsedLine]
  cases hfields : tokens bar (stringAt mem line) with
  | nil => rw [strtokR_none hfields]
  | cons number fields =>
    obtain ⟨t, ht, htakes⟩ := strtokR_some hfields
    have hnone : fields = [] := by
      rw [hfields, length_cons] at h
      exact eq_nil_of_length_eq_zero (by omega)
    rw [ht]
    dsimp only
    rw [strtokR_none (htakes.next.trans hnone)]

theorem addParsedLine_field (inet : Inet) (hfields : tokens bar (stringAt mem line) = number :: field :: fields) :
    ∃ t : Token, stringAt t.mem t.start = field ∧ t.mem.length = mem.length ∧
      (∀ n, line + (stringAt mem line).length ≤ n → t.mem.drop n = mem.drop n) ∧
      t.start + field.length ≤ line + (stringAt mem line).length ∧
      addParsedLine inet mem line = (strtokR space t.mem t.start).bind fun name =>
        (inet.parse (stringAt name.mem name.start)).map fun address =>
          (name.mem, address, atoi number) := by
  obtain ⟨t₁, ht₁, htakes₁⟩ := strtokR_some hfields
  obtain ⟨t₂, ht₂, htakes₂⟩ := strtokR_some htakes₁.next
  have hstop := htakes₂.stop
  have hsaved := htakes₁.saved
  refine ⟨t₂, htakes₂.token, ?_, fun n hn => ?_, by omega, ?_⟩
  · rw [htakes₂.length, htakes₁.length]
  · rw [htakes₂.frame n (.inr (by omega)), htakes₁.frame n (.inr hn)]
  · simp only [addParsedLine, ht₁, ht₂, htakes₁.token]
    cases strtokR space t₂.mem t₂.start <;> rfl

section

variable (hfields : tokens bar (stringAt mem line) = number :: field :: fields)
include hfields

theorem addParsedLine_blank (hnames : tokens space field = []) : addParsedLine inet mem line = none := by
  obtain ⟨t, hfield, -, -, -, hadd⟩ := addParsedLine_field inet hfields
  rw [hadd, strtokR_none (by rw [hfield, hnames])]
  rfl

theorem addParsedLine_name (hnames : tokens space field = name :: names) : ∃ mem', mem'.length = mem.length ∧
      (∀ n, line + (stringAt mem line).length ≤ n → mem'.drop n = mem.drop n) ∧
      addParsedLine inet mem line = (inet.parse name).map fun address => (mem', address, atoi number) := by
  obtain ⟨t, hfield, hlength, hframe, hstop, hadd⟩ := addParsedLine_field inet hfields
  rw [← hfield] at hnames
  obtain ⟨t', ht', htakes⟩ := strtokR_some hnames
  refine ⟨t'.mem, htakes.length.trans hlength, fun n hn => ?_, ?_⟩
  · rw [htakes.frame n (.inr (by rw [hfield]; omega)), hframe n hn]
  · rw [hadd, ht', Option.bind_some, htakes.token]

end

theorem addParsedLine_none (h : parsedLine inet (stringAt mem line) = none) : addParsedLine inet mem line = none := by
  rw [parsedLine] at h
  split at h
  · rename_i number field fields hfields
    split at h
    · rename_i name names hnames
      obtain ⟨mem', -, -, hadd⟩ := addParsedLine_name hfields hnames
      rw [hadd, Option.map_eq_none_iff]
      exact Option.map_eq_none_iff.mp h
    · rename_i hnames
      exact addParsedLine_blank hfields hnames
  · rename_i hfields
    refine addParsedLine_few ?_
    cases hcases : tokens bar (stringAt mem line) with
    | nil => simp
    | cons number fields =>
      cases fields with
      | nil => simp
      | cons field fields => exact absurd hcases (hfields _ _ _)

theorem addParsedLine_some {address : SockAddr} {as : ℤ} (h : parsedLine inet (stringAt mem line) = some (address, as)) :
    ∃ mem', addParsedLine inet mem line = some (mem', address, as) ∧ mem'.length = mem.length ∧
      ∀ n, line + (stringAt mem line).length ≤ n → mem'.drop n = mem.drop n := by
  rw [parsedLine] at h
  split at h
  · rename_i number field fields hfields
    split at h
    · rename_i name names hnames
      obtain ⟨mem', hlength, hframe, hadd⟩ := addParsedLine_name hfields hnames
      obtain ⟨found, hparse, heq⟩ := Option.map_eq_some_iff.mp h
      obtain ⟨rfl, rfl⟩ := Prod.mk.inj heq
      exact ⟨mem', by rw [hadd, hparse]; rfl, hlength, hframe⟩
    · cases h
  · cases h

theorem length_addParsedLine {mem' : CStr} {x : SockAddr × ℤ}
    (h : addParsedLine inet mem line = some (mem', x)) : mem'.length = mem.length := by
  cases hparsed : parsedLine inet (stringAt mem line) with
  | none =>
    rw [addParsedLine_none hparsed] at h
    cases h
  | some y =>
    obtain ⟨mem'', hadd, hlength, -⟩ := addParsedLine_some hparsed
    rw [hadd] at h
    obtain ⟨rfl, -⟩ := Prod.mk.inj (Option.some.inj h)
    exact hlength

end Parsed

structure AnswerLine (inet : Inet) (address : SockAddr) (as : ℤ) (line : CStr) : Prop where
  fields : ∃ number n name tail, line = number ++ bar :: (replicate n space ++ (name ++ tail)) ∧
    number ≠ [] ∧ bar ∉ number ∧ strtol number = as ∧ 0 ≤ as ∧ as < 2 ^ 31 ∧
    name ≠ [] ∧ bar ∉ name ∧ space ∉ name ∧ (∀ b ∈ tail.head?, b = space ∨ b = bar) ∧
    inet.parse name = some address
  header : isHeader line = false

variable {inet : Inet}

theorem AnswerLine.parsed {address : SockAddr} {as : ℤ} {line : CStr}
    (h : AnswerLine inet address as line) : parsedLine inet line = some (address, as) := by
  obtain ⟨number, n, name, tail, rfl, hnumber, hbar, hstrtol, hpos, hlt, hname, hnamebar, hnamespace, htail, hparse⟩ := h.fields
  have hatoi : atoi number = as := by
    rw [atoi, hstrtol]
    exact Int.bmod_eq_of_le (by omega) (by omega)
  obtain ⟨front, back, rfl, hfront, hback⟩ := exists_split_at bar tail
  have hfrontHead : ∀ b ∈ front.head?, b = space := by
    intro b hb
    obtain ⟨rest, rfl⟩ := head?_eq_some_iff.mp hb
    refine (htail b rfl).resolve_right fun heq => hfront ?_
    simp [heq]
  have hspaces : ∀ b ∈ replicate n space, b = space := fun b => eq_of_mem_replicate
  have hfield : bar ∉ replicate n space ++ (name ++ front) := by
    simp only [mem_append, not_or]
    exact ⟨fun hmem => absurd (hspaces _ hmem) (by decide), hnamebar, hfront⟩
  have hfields : tokens bar (number ++ bar :: (replicate n space ++ (name ++ (front ++ back)))) =
      number :: (replicate n space ++ (name ++ front)) :: tokens bar back.tail := by
    rw [tokens_token hbar hnumber (by simp), tail_cons, ← append_assoc name,
      ← append_assoc, tokens_token hfield (by simp [hname]) hback]
  simp only [parsedLine, hfields, tokens_skip hspaces, tokens_token hnamespace hname hfrontHead, hparse, Option.map_some, hatoi]

def bufferLen : ℕ := 1024

structure Line where
  text : CStr
  entry : Option (SockAddr × ℤ)

def Line.bytes (l : Line) : CStr := l.text ++ [newline]

structure Line.Valid (inet : Inet) (l : Line) : Prop where
  single : newline ∉ l.text
  terminated : 0 ∉ l.text
  short : l.bytes.length < bufferLen
  header : l.entry = none → isHeader l.text = true
  answer : ∀ x ∈ l.entry, AnswerLine inet x.1 x.2 l.text

def entries (lines : List Line) : List (SockAddr × ℤ) := lines.filterMap Line.entry

def stream (lines : List Line) : CStr := (lines.map Line.bytes).flatten

def addEntry (e : Endian) (trie : IpTrie) (x : SockAddr × ℤ) : IpTrie :=
  iptrieAdd e trie x.1 (prefixFor x.1) x.2

theorem zero_notMem_stream {lines : List Line} (hlines : ∀ l ∈ lines, l.Valid inet) : 0 ∉ stream lines := by
  simp only [stream, mem_flatten, mem_map, not_exists]
  rintro _ ⟨⟨l, hl, rfl⟩, hmem⟩
  rcases mem_append.mp hmem with hmem | hmem
  · exact (hlines l hl).terminated hmem
  · exact absurd (mem_singleton.mp hmem) (by decide)

theorem length_le_stream (lines : List Line) : lines.length ≤ (stream lines).length := by
  induction lines with
  | nil => exact Nat.zero_le _
  | cons l lines ih =>
    rw [stream] at ih ⊢
    simp only [map_cons, flatten_cons, length_append, length_cons, Line.bytes, length_nil] at ih ⊢
    omega

def Parsing.after (s : Parsing) (e : Endian) (new : List (SockAddr × ℤ)) (rest : CStr) : Parsing where
  result := new.foldl (addEntry e) s.result
  info := s.info.map fun trie => new.foldl (addEntry e) trie
  buffer := rest
  outstanding := s.outstanding.map (· - new.length)

theorem Parsing.after_after (s : Parsing) (e : Endian) (new new' : List (SockAddr × ℤ))
    (rest rest' : CStr) : (s.after e new rest).after e new' rest' = s.after e (new ++ new') rest' := by
  obtain ⟨result, info, buffer, outstanding⟩ := s
  simp only [after, foldl_append, Option.map_map, Parsing.mk.injEq, true_and]
  refine ⟨rfl, ?_⟩
  congr 1
  funext k
  simp only [Function.comp, length_append]
  omega

def lineEntry (inet : Inet) (line : CStr) : Option (SockAddr × ℤ) :=
  if isHeader line then none else parsedLine inet line

def Readable (inet : Inet) (line : CStr) : Prop :=
  isHeader line = true ∨ (parsedLine inet line).isSome

theorem Readable.ne_nil {line : CStr} (h : Readable inet line) : line ≠ [] := by
  rintro rfl
  rcases h with h | h
  · exact absurd h (by decide)
  · rw [parsedLine, tokens_nil] at h
    cases h

section Turn

variable {e : Endian} {inet : Inet} {s : Parsing} {first rest : CStr}

theorem stringAt_first (rest : CStr) (hzero : 0 ∉ first) :
    stringAt (first ++ newline :: rest) 0 = first ++ newline :: stringAt rest 0 := by
  have hall : ∀ b ∈ first, decide (b ≠ 0) = true := fun b hb =>
    decide_eq_true fun heq => hzero (heq ▸ hb)
  rw [stringAt, drop_zero, takeWhile_append_of_pos hall, takeWhile_cons_of_pos (by decide)]
  rfl

theorem strtokR_first (hbuffer : s.buffer = first ++ newline :: rest) (hzero : 0 ∉ first)
    (hfirst : newline ∉ first) (hne : first ≠ []) :
    ∃ t, strtokR newline s.buffer 0 = some t ∧ t.start = 0 ∧ stringAt t.mem 0 = first ∧
      t.mem.length = s.buffer.length ∧ t.mem.drop (first.length + 1) = rest := by
  have hstring : stringAt s.buffer 0 = first ++ newline :: stringAt rest 0 :=
    hbuffer ▸ stringAt_first rest hzero
  have htokens : tokens newline (stringAt s.buffer 0) = first :: tokens newline (stringAt rest 0) := by
    rw [hstring, tokens_token hfirst hne (by simp), tail_cons]
  obtain ⟨t, ht, htakes⟩ := strtokR_some htokens
  have hstart : t.start = 0 := by
    obtain ⟨b, first, rfl⟩ := exists_cons_of_ne_nil hne
    have hb : b ≠ newline := fun heq => hfirst (heq ▸ mem_cons_self ..)
    rw [htakes.start, hstring, cons_append, takeWhile_cons_of_neg (by simpa using hb)]
    rfl
  refine ⟨t, ht, hstart, hstart ▸ htakes.token, htakes.length, ?_⟩
  rw [htakes.frame _ (.inl (by omega)), hbuffer, ← drop_drop, drop_left]
  rfl

theorem processLine_readable (h : Readable inet first) (hbuffer : s.buffer = first ++ newline :: rest)
    (hzero : 0 ∉ first) (hfirst : newline ∉ first) :
    processLine e inet s = some (s.after e (lineEntry inet first).toList rest) := by
  obtain ⟨t, ht, hstart, hline, -, hdrop⟩ := strtokR_first hbuffer hzero hfirst h.ne_nil
  rw [processLine, ht]
  dsimp only
  rw [hstart, hline, lineEntry]
  by_cases hheader : isHeader first = true
  · rw [if_pos hheader, if_pos hheader, hdrop]
    obtain ⟨result, info, buffer, outstanding⟩ := s
    simp [Parsing.after]
  · obtain ⟨x, hx⟩ := Option.isSome_iff_exists.mp (h.resolve_left hheader)
    have hparsed : parsedLine inet (stringAt t.mem 0) = some x := by rw [hline, hx]
    obtain ⟨mem, hadd, -, hframe⟩ := addParsedLine_some hparsed
    have hafter : mem.drop (first.length + 1) = rest := by
      rw [hframe _ (by rw [hline]; omega), hdrop]
    rw [if_neg hheader, if_neg hheader, hadd, Option.map_some, hafter, hx]
    rfl

theorem processLine_unreadable (h : ¬ Readable inet first) (hne : first ≠ [])
    (hbuffer : s.buffer = first ++ newline :: rest) (hzero : 0 ∉ first) (hfirst : newline ∉ first) :
    processLine e inet s = none := by
  obtain ⟨t, ht, hstart, hline, -, -⟩ := strtokR_first hbuffer hzero hfirst hne
  obtain ⟨hheader, hparsed⟩ := not_or.mp h
  rw [processLine, ht]
  dsimp only
  rw [hstart, hline, if_neg hheader, addParsedLine_none (by rw [hline]; simpa using hparsed)]
  rfl

theorem strtokR_line {buffer : CStr} {t : Token} (ht : strtokR newline buffer 0 = some t)
    (hline : newline ∈ stringAt buffer 0) : t.mem.length = buffer.length ∧ t.start ≤ buffer.length ∧
      0 < (stringAt t.mem t.start).length ∧ (stringAt t.mem t.start).length + 1 ≤ buffer.length := by
  have hle : (stringAt buffer 0).length ≤ buffer.length := (takeWhile_sublist _).length_le
  cases htokens : tokens newline (stringAt buffer 0) with
  | nil =>
    rw [strtokR_none htokens] at ht
    cases ht
  | cons word more =>
    obtain ⟨t', ht', htakes⟩ := strtokR_some htokens
    obtain rfl : t' = t := Option.some.inj (ht'.symm.trans ht)
    have hne : word ≠ [] := ne_nil_of_mem_tokens (htokens ▸ mem_cons_self ..)
    have hlt := length_token_lt htokens hline
    have hstop := htakes.stop
    rw [htakes.token]
    exact ⟨htakes.length, by omega, length_pos_iff.mpr hne, by omega⟩

theorem length_processLine {s' : Parsing} (h : processLine e inet s = some s')
    (hline : newline ∈ stringAt s.buffer 0) : s'.buffer.length + 1 < s.buffer.length := by
  rw [processLine] at h
  cases ht : strtokR newline s.buffer 0 with
  | none =>
    rw [ht] at h
    cases h
  | some t =>
    obtain ⟨hlength, -, hpos, hle⟩ := strtokR_line ht hline
    rw [ht] at h
    dsimp only at h
    split_ifs at h
    · cases h
      simp only [length_drop]
      omega
    · obtain ⟨⟨mem, x⟩, hadd, rfl⟩ := Option.map_eq_some_iff.mp h
      have hmem := length_addParsedLine hadd
      simp only [length_drop]
      omega

end Turn

theorem processLine_line {e : Endian} {l : Line} {s : Parsing} {rest : CStr} (hl : l.Valid inet)
    (hbuffer : s.buffer = l.bytes ++ rest) :
    processLine e inet s = some (s.after e l.entry.toList rest) := by
  have hsplit : s.buffer = l.text ++ newline :: rest := by
    rw [hbuffer, Line.bytes, append_assoc, singleton_append]
  have hentry : lineEntry inet l.text = l.entry := by
    rw [lineEntry]
    cases hentry : l.entry with
    | none => rw [if_pos (hl.header hentry)]
    | some x =>
      rw [if_neg (by simp [(hl.answer x hentry).header]), (hl.answer x hentry).parsed]
  have hreadable : Readable inet l.text := by
    cases hentry : l.entry with
    | none => exact .inl (hl.header hentry)
    | some x => exact .inr (by rw [(hl.answer x hentry).parsed]; rfl)
  rw [processLine_readable hreadable hsplit hl.terminated hl.single, hentry]

section

variable {lines : List Line} (hlines : ∀ l ∈ lines, l.Valid inet) {coming : CStr}
include hlines

theorem processBuffer_lines {e : Endian} {s : Parsing} {tail : CStr} {fuel : ℕ}
    (htail : newline ∉ tail) (hzero : 0 ∉ tail) (hfuel : lines.length ≤ fuel)
    (hbuffer : s.buffer = stream lines ++ tail) :
    processBuffer e inet fuel s = some (s.after e (entries lines) tail) := by
  induction lines generalizing s fuel with
  | nil =>
    have hnone : newline ∉ stringAt s.buffer 0 := fun hmem => by
      rw [hbuffer] at hmem
      exact htail (takeWhile_subset _ hmem)
    have hsame : s.after e (entries []) tail = s := by
      obtain ⟨result, info, buffer, outstanding⟩ := s
      simp_all [Parsing.after, entries, stream]
    cases fuel with
    | zero => rw [processBuffer, hsame]
    | succ fuel => rw [processBuffer, if_neg hnone, hsame]
  | cons l lines ih =>
    have hl := hlines l (mem_cons_self ..)
    have hlines' : ∀ l ∈ lines, l.Valid inet := fun l hl => hlines l (mem_cons_of_mem _ hl)
    have hsplit : s.buffer = l.bytes ++ (stream lines ++ tail) := by
      simp [hbuffer, stream]
    have hrest : 0 ∉ stream lines ++ tail := by
      rw [mem_append, not_or]
      exact ⟨zero_notMem_stream hlines', hzero⟩
    have hfound : newline ∈ stringAt s.buffer 0 := by
      have hterm : 0 ∉ s.buffer := by
        rw [hsplit, Line.bytes]
        simp only [append_assoc, mem_append, mem_singleton, not_or]
        exact ⟨hl.terminated, by decide, by simpa using hrest⟩
      have hmem : s.buffer = [] ++ (s.buffer ++ []) := by simp
      have hat : stringAt s.buffer 0 = s.buffer := stringAt_eq hterm (by simp) hmem
      rw [hat, hsplit, Line.bytes]
      simp
    cases fuel with
    | zero => cases hfuel
    | succ fuel =>
      rw [processBuffer, if_pos hfound, processLine_line hl hsplit, Option.bind_some,
        ih hlines' (Nat.le_of_succ_le_succ hfuel) rfl, Parsing.after_after]
      cases hentry : l.entry <;> simp [entries, hentry]

theorem stream_split {received : CStr} (h : received ++ coming = stream lines) :
    ∃ whole left tail, lines = whole ++ left ∧ received = stream whole ++ tail ∧
      newline ∉ tail ∧ tail ++ coming = stream left := by
  induction lines generalizing received with
  | nil =>
    obtain ⟨rfl, rfl⟩ := append_eq_nil_iff.mp h
    exact ⟨[], [], [], rfl, rfl, not_mem_nil, rfl⟩
  | cons l lines ih =>
    have hcons : received ++ coming = l.bytes ++ stream lines := h
    rcases append_eq_append_iff.mp hcons with ⟨more, hbytes, hcoming⟩ | ⟨more, hreceived, hmore⟩
    · -- less than one line, or the whole of it
      rcases more.eq_nil_or_concat with rfl | ⟨start, b, rfl⟩
      · refine ⟨[l], lines, [], rfl, ?_, not_mem_nil, ?_⟩
        · simpa [stream] using hbytes.symm
        · simpa using hcoming
      · refine ⟨[], l :: lines, received, rfl, rfl, fun hmem => ?_, h⟩
        rw [Line.bytes, concat_eq_append, ← append_assoc] at hbytes
        have htext := (append_inj' hbytes rfl).1
        exact (hlines l (mem_cons_self ..)).single (by rw [htext]; simp [hmem])
    · obtain ⟨whole, left, tail, rfl, rfl, htail, hleft⟩ :=
        ih (fun l hl => hlines l (mem_cons_of_mem _ hl)) hmore.symm
      exact ⟨l :: whole, left, tail, rfl, by simp [hreceived, stream], htail, hleft⟩

theorem stream_start {start : CStr} (h : start ++ coming = stream lines) (hstart : newline ∉ start)
    (hcoming : coming ≠ []) : start.length + 1 < bufferLen := by
  cases lines with
  | nil => exact absurd (append_eq_nil_iff.mp h).2 hcoming
  | cons l lines =>
    have hshort := (hlines l (mem_cons_self ..)).short
    rw [Line.bytes, length_append, length_singleton] at hshort
    have hcons : start ++ coming = l.text ++ newline :: stream lines := by
      simpa [stream, Line.bytes] using h
    rcases append_eq_append_iff.mp hcons with ⟨more, htext, -⟩ | ⟨more, rfl, hmore⟩
    · have hlength := congrArg length htext
      rw [length_append] at hlength
      omega
    · cases more with
      | nil => simpa using hshort
      | cons b more =>
        obtain ⟨rfl, -⟩ := cons.inj hmore
        exact absurd (by simp) hstart

end

end Amplet.AsnLines
