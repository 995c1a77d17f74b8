import Amplet.HttpObjects
import Amplet.RuleScanner

/-!
# The page scanner of the HTTP test

Embedding of `src/tests/http/lexer.l` and of `parse_response` in
`src/tests/http/parsers.c`. Each buffer that curl hands over is scanned on its own with
`yy_scan_bytes`; the start conditions and the text of `url` stay between two buffers.
All start conditions but `INITIAL` are exclusive, and what no rule of theirs matches is
echoed byte by byte. The rule for icons in double quotes has a bar as its action, which
stands for the action of the rule behind it: the one for single quotes, which belongs to
`INITIAL`. A byte stored behind the end of `url` leaves the process in an undefined
state.
-/

namespace Amplet.HttpScanner
open List Bytes HttpObjects RuleScanner

inductive Start
  | initial
  | script
  | scriptbody
  | noscript
  | comment
  | img
  | dbquote
  | squote
  | linktag
  | style
deriving DecidableEq, Repr

inductive Action
  | skip
  | push (start : Start)
  | pop
  | popTwice
  | relation
  | endLink
  | entity
  | fragment
  | byte
  | endQuote
  | stop
deriving DecidableEq, Repr

inductive Quote
  | double
  | single
deriving DecidableEq, Repr

def Quote.mark : Quote → UInt8
  | .double => 34
  | .single => 39

/-- `[a-zA-Z0-9_ ]`. -/
def isChar (b : UInt8) : Bool :=
  (97 ≤ b && b ≤ 122) || (65 ≤ b && b ≤ 90) || (48 ≤ b && b ≤ 57) || b = 95 || b = 32

/-- `"-"{2,}">"`. -/
def closingDashes (text : CStr) : ℕ :=
  let dashes := run (· = 45) text
  if 2 ≤ dashes ∧ (text.drop dashes).head? = some 62 then dashes + 1 else 0

/-- `&#[0-9]{2,3};`. -/
def decimalEntity (text : CStr) : ℕ :=
  let digits := run isdigit (text.drop 2)
  if (cstr "&#").isPrefixOf text ∧ 2 ≤ digits ∧ digits ≤ 3 ∧ (text.drop (digits + 2)).head? = some 59 then digits + 3 else 0

def iconRelation (q : Quote) (text : CStr) : ℕ :=
  let chars := run isChar (text.drop 5)
  if (cstr "rel=" ++ [q.mark]).isPrefixOf text ∧ cstr "icon" <:+: (text.drop 5).take chars ∧
    (text.drop (chars + 5)).head? = some q.mark then chars + 6 else 0

def sheetRelation (text : CStr) : ℕ :=
  max (literal (cstr "rel=\"stylesheet\"") text) (literal (cstr "rel='stylesheet'") text)

def rules : List (Rule Start UInt8 Action) :=
  [⟨[.initial], literal (cstr "<!--"), .push .comment⟩,
    ⟨[.comment], run (fun b => b ≠ 45 ∧ b ≠ 10), .skip⟩,
    ⟨[.comment], headed 45 (fun b => b ≠ 45 ∧ b ≠ 62 ∧ b ≠ 10), .skip⟩,
    ⟨[.comment], single (· = 10), .skip⟩,
    ⟨[.comment], closingDashes, .pop⟩,
    ⟨[.initial], literal (cstr "<noscript>"), .push .noscript⟩,
    ⟨[.noscript], run (fun b => b ≠ 60 ∧ b ≠ 10), .skip⟩,
    ⟨[.noscript], headed 60 (fun b => b ≠ 47 ∧ b ≠ 10), .skip⟩,
    ⟨[.noscript], single (· = 10), .skip⟩,
    ⟨[.noscript], literal (cstr "</noscript>"), .pop⟩,
    ⟨[.initial], literal (cstr "<script"), .push .script⟩,
    ⟨[.script], single (· = 62), .push .scriptbody⟩,
    ⟨[.script], run (fun b => b ≠ 115 ∧ b ≠ 60 ∧ b ≠ 62 ∧ b ≠ 10), .skip⟩,
    ⟨[.script], single (· = 10), .skip⟩,
    ⟨[.script, .img], single (· = 115), .skip⟩,
    ⟨[.script, .img], literal (cstr "src=\""), .push .dbquote⟩,
    ⟨[.script, .img], literal (cstr "src='"), .push .squote⟩,
    ⟨[.scriptbody], run (· ≠ 60), .skip⟩,
    ⟨[.scriptbody], headed 60 (fun b => b ≠ 47 ∧ b ≠ 10), .skip⟩,
    ⟨[.scriptbody], literal (cstr "</script>"), .popTwice⟩,
    ⟨[.initial], literal (cstr "<img"), .push .img⟩,
    ⟨[.img], run (fun b => b ≠ 115 ∧ b ≠ 62 ∧ b ≠ 10), .skip⟩,
    ⟨[.img], single (· = 10), .skip⟩,
    ⟨[.img], single (· = 62), .pop⟩,
    ⟨[.initial], literal (cstr "<link"), .push .linktag⟩,
    ⟨[.linktag, .style], run (fun b => b ≠ 104 ∧ b ≠ 114 ∧ b ≠ 62 ∧ b ≠ 10), .skip⟩,
    ⟨[.linktag, .style], pair 104 (fun b => b ≠ 114 ∧ b ≠ 62 ∧ b ≠ 10), .skip⟩,
    ⟨[.linktag, .style], literal (cstr "href=\""), .push .dbquote⟩,
    ⟨[.linktag, .style], literal (cstr "href='"), .push .squote⟩,
    ⟨[.linktag, .style], single (· = 10), .skip⟩,
    ⟨[.linktag, .style], single (· = 114), .skip⟩,
    ⟨[.linktag, .style], single (· = 104), .skip⟩,
    ⟨[.linktag], sheetRelation, .relation⟩,
    ⟨[.linktag], iconRelation .double, .relation⟩,
    ⟨[.initial], iconRelation .single, .relation⟩,
    ⟨[.linktag], single (· = 62), .endLink⟩,
    ⟨[.dbquote], decimalEntity, .entity⟩,
    ⟨[.dbquote], single (· = 35), .fragment⟩,
    ⟨[.dbquote], single (· ≠ 34), .byte⟩,
    ⟨[.dbquote], single (· = 34), .endQuote⟩,
    ⟨[.squote], decimalEntity, .entity⟩,
    ⟨[.squote], single (· = 35), .fragment⟩,
    ⟨[.squote], single (· ≠ 39), .byte⟩,
    ⟨[.squote], single (· = 39), .endQuote⟩,
    ⟨[.initial], literal (cstr "</html>"), .stop⟩,
    ⟨[.initial], single (fun _ => true), .skip⟩]

def turn (start : Start) (text : CStr) : ℕ × Action :=
  (best text (active start rules)).getD (1, .skip)

/-- `url` is the text below `url_index`, and `found` the names handed to `add_object`. -/
structure Scanner where
  start : Start
  stack : List Start
  url : CStr
  found : List CStr
deriving DecidableEq, Repr

def Scanner.fresh : Scanner := ⟨.initial, [], [], []⟩

def Scanner.push (start : Start) (s : Scanner) : Scanner :=
  { s with start := start, stack := s.start :: s.stack }

/-- Each rule that pops belongs to a start condition that was pushed. -/
def Scanner.pop (s : Scanner) : Scanner :=
  match s.stack with
  | [] => s
  | start :: stack => { s with start := start, stack := stack }

def Scanner.addObject (s : Scanner) : Scanner :=
  { s with found := s.found ++ [s.url.takeWhile (· ≠ 0)] }

def Scanner.store (b : UInt8) (s : Scanner) : Option Scanner :=
  if s.url.length < maxUrlLen then some { s with url := s.url ++ [b] } else none

def Scanner.endQuote (s : Scanner) : Option Scanner :=
  if s.url.length < maxUrlLen then
    let stored := if s.stack.head? ≠ some .linktag then { s.addObject with url := [] } else s
    some (if s.stack.head? = some .style then stored.pop.pop else stored.pop)
  else none

def perform (action : Action) (token : CStr) (s : Scanner) : Option Scanner :=
  match action with
  | .skip => some s
  | .push start => some (s.push start)
  | .pop => some s.pop
  | .popTwice => some s.pop.pop
  | .relation => some (if s.url ≠ [] then s.addObject else s.push .style)
  | .endLink => some { s with url := [] }.pop
  | .entity => s.store (UInt8.ofInt (atoi (token.drop 2)))
  | .fragment => s.store 0
  | .byte => s.store (token.headD 0)
  | .endQuote => s.endQuote
  | .stop => some s

/-- One call of `yylex`. Every token has a byte, so as much fuel as text is enough. -/
def yylex : ℕ → Scanner → CStr → Option Scanner
  | 0, s, _ => some s
  | fuel + 1, s, text =>
    if text = [] then some s
    else
      let next := turn s.start text
      if next.2 = .stop then some s
      else
        match perform next.2 (text.take next.1) s with
        | none => none
        | some s => yylex fuel s (text.drop next.1)

def parseResponse (s : Scanner) (buffer : CStr) : Option Scanner :=
  yylex buffer.length s buffer

def scanBody : Scanner → List CStr → Option Scanner
  | s, [] => some s
  | s, buffer :: buffers => (parseResponse s buffer).bind fun s => scanBody s buffers

theorem longest_le_turn (start : Start) (text : CStr) :
    ∀ rule ∈ rules, start ∈ rule.starts → rule.longest text ≤ (turn start text).1 := by
  intro rule hrule hstart
  have hactive : rule ∈ active start rules := mem_filter.2 ⟨hrule, decide_eq_true hstart⟩
  unfold turn
  cases hbest : best text (active start rules) with
  | none => exact (best_none hbest rule hactive).trans_le (Nat.zero_le _)
  | some next => exact (best_some hbest).2.2 rule hactive

theorem turn_pos (start : Start) (text : CStr) : 0 < (turn start text).1 := by
  unfold turn
  cases hbest : best text (active start rules) with
  | none => exact Nat.one_pos
  | some next => exact (best_some hbest).2.1

end Amplet.HttpScanner
