import Amplet.HttpObjects
import Amplet.TextPieces
import Mathlib.Data.List.DropRight

/-!
# Response headers of the HTTP test

Embedding of `parse_headers` in `src/tests/http/parsers.c`. A header line is the text
that curl hands over, with its line end. The buffer for a location starts with whatever
is on the stack, and a location that does not fit it ends the process. A flag is
recognised by the start of a token, and the numbers only in lower case.
-/

namespace Amplet.HttpHeaders
open List Option Bytes HttpUrl HttpObjects TextPieces Delimited

inductive Flag
  | pub
  | priv
  | noCache
  | noStore
  | noTransform
  | mustRevalidate
  | proxyRevalidate
deriving DecidableEq, Repr

def Flag.name : Flag → CStr
  | .pub => cstr "public"
  | .priv => cstr "private"
  | .noCache => cstr "no-cache"
  | .noStore => cstr "no-store"
  | .noTransform => cstr "no-transform"
  | .mustRevalidate => cstr "must-revalidate"
  | .proxyRevalidate => cstr "proxy-revalidate"

def Flag.all : List Flag :=
  [.pub, .priv, .noCache, .noStore, .noTransform, .mustRevalidate, .proxyRevalidate]

structure CacheHeaders where
  maxAge : ℤ
  sMaxage : ℤ
  xCache : ℤ
  xCacheLookup : ℤ
  flags : Flag → Bool

attribute [ext] CacheHeaders

structure ObjectHeaders where
  cache : CacheHeaders
  location : Option CStr

/-- `" \t,;"` -/
def separators : List UInt8 := [32, 9, 44, 59]

/-- `" ,"`, for all tokens but the first -/
def laterSeparators : List UInt8 := [32, 44]

def cacheTokens (directives : CStr) : List CStr :=
  match strtok separators directives with
  | none => []
  | some (token, rest) => token :: pieces (· ∈ laterSeparators) rest

def scanInt (text token : CStr) : Option ℤ :=
  if token.take text.length = text then
    let rest := (token.drop text.length).dropWhile isspace
    let digits := if rest.head? = some 43 ∨ rest.head? = some 45 then rest.drop 1 else rest
    if digits.head?.any isdigit then some (atoi rest) else none
  else none

def setFlag (f : Flag) (cache : CacheHeaders) : CacheHeaders :=
  { cache with flags := Function.update cache.flags f true }

def applyDirective (cache : CacheHeaders) (token : CStr) : CacheHeaders :=
  match Flag.all.find? fun f => startsWith f.name token with
  | some f => setFlag f cache
  | none =>
    if startsWith (cstr "max-age") token then
      { cache with maxAge := (scanInt (cstr "max-age=") token).getD cache.maxAge }
    else if startsWith (cstr "s-maxage") token then
      { cache with sMaxage := (scanInt (cstr "s-maxage=") token).getD cache.sMaxage }
    else cache

def cacheHit (directives : CStr) (old : ℤ) : ℤ :=
  if startsWith (cstr "HIT") directives then 1
  else if startsWith (cstr "MISS") directives then 0
  else old

/-- `sscanf(buf, "%*[Ll]ocation: %s", location)`, where `memory` is the text in
the buffer before. -/
def scanLocation (memory buf : CStr) : Option CStr :=
  let rest := buf.dropWhile fun b => b = 76 ∨ b = 108
  if rest.length < buf.length ∧ rest.take 8 = cstr "ocation:" then
    let word := ((rest.drop 8).dropWhile isspace).takeWhile fun b => !isspace b
    if word = [] then some memory else if word.length < maxUrlLen then some word else none
  else some memory

def parseHeaders (memory : CStr) (object : ObjectHeaders) (buf : CStr) : Option (ObjectHeaders × Option Bool) :=
  if startsWith (cstr "Cache-Control: ") buf then
    let tokens := cacheTokens (buf.drop 15)
    some ({ object with cache := tokens.foldl applyDirective object.cache }, none)
  else if startsWith (cstr "X-Cache: ") buf then
    let cache := { object.cache with xCache := cacheHit (buf.drop 9) object.cache.xCache }
    some ({ object with cache }, none)
  else if startsWith (cstr "X-Cache-Lookup: ") buf then
    let cache := { object.cache with
      xCacheLookup := cacheHit (buf.drop 16) object.cache.xCacheLookup }
    some ({ object with cache }, none)
  else if buf.take 15 = cstr "HTTP/1.0 200 OK" then some (object, some false)
  else if buf.take 15 = cstr "HTTP/1.1 200 OK" then some (object, some true)
  else if startsWith (cstr "Location: ") buf then
    (scanLocation memory buf).map fun location => ({ object with location := some location }, none)
  else some (object, none)

def directives (rest : CStr) : List CStr :=
  pieces (· ∈ ([32, 9, 44, 59, 13, 10] : List UInt8)) rest

def Names (name directive : CStr) : Prop := (directive.takeWhile (· ≠ 61)).map tolower = name

instance (name directive : CStr) : Decidable (Names name directive) :=
  inferInstanceAs (Decidable (_ = _))

def givenNumber (name directive : CStr) : Option ℤ :=
  let value := (directive.dropWhile (· ≠ 61)).drop 1
  let digits := if value.head? = some 45 then value.drop 1 else value
  if Names name directive ∧ digits ≠ [] ∧ digits.all isdigit then
    some (if value.head? = some 45 then -digitsValue digits else digitsValue digits)
  else none

def lastNumber (read : CStr → Option ℤ) (texts : List CStr) : Option ℤ :=
  (texts.filterMap read).getLast?

def specified (rest : CStr) (cache : CacheHeaders) : CacheHeaders :=
  { cache with
    maxAge := (lastNumber (givenNumber (cstr "max-age")) (directives rest)).getD cache.maxAge
    sMaxage := (lastNumber (givenNumber (cstr "s-maxage")) (directives rest)).getD cache.sMaxage
    flags := fun f => cache.flags f || (directives rest).any fun d => Names f.name d }

def headerValue (rest : CStr) : CStr := (rest.dropWhile isspace).rdropWhile isspace

def seenTokens (rest : CStr) : List CStr :=
  if rest.head? = some 32 then cacheTokens rest.tail else []

/-- A place behind the blank of the header where a directive is looked for: before it are
separators only, or a blank or comma, or the first directive and one separator. -/
structure ReadBehind (before : CStr) : Prop where
  blank : before.head? = some 32
  place : (∀ b ∈ before, b ∈ separators) ∨ before.getLast? = some 32 ∨ before.getLast? = some 44 ∨
    ∃ blanks first separator, before = blanks ++ (first ++ [separator]) ∧
      (∀ b ∈ blanks, b ∈ separators) ∧ first ≠ [] ∧ (∀ b ∈ first, b ∉ separators) ∧ separator ∈ separators

def delimitersAt (before : CStr) : List UInt8 :=
  if before.all (· ∈ separators) then separators else laterSeparators

def StartsNumber (number : CStr) : Prop :=
  ∃ sign digit more, number = sign ++ digit :: more ∧ sign ∈ ([[], [43], [45]] : List CStr) ∧ isdigit digit = true

/-- At a place that is read stands the text, and the number behind it. -/
def NumberRead (text rest before : CStr) (n : ℤ) : Prop :=
  ReadBehind before ∧ ∃ blanks number, rest = before ++ (text ++ (blanks ++ number)) ∧
    (∀ b ∈ blanks, isspace b = true ∧ b ∉ delimitersAt before) ∧ StartsNumber number ∧ n = atoi number

def LastRead (text rest : CStr) (n : ℤ) : Prop :=
  ∃ before, NumberRead text rest before n ∧ ∀ before' n', NumberRead text rest before' n' → before'.length ≤ before.length

/-- The flags whose names stand where a directive is looked for are those given, and the last
numbers that stand there are those given last. -/
structure ReadAsGiven (rest : CStr) : Prop where
  flags : ∀ f : Flag, (∃ before word behind, rest = before ++ (word ++ behind) ∧
      ReadBehind before ∧ word.map tolower = f.name) ↔ ∃ d ∈ directives rest, Names f.name d
  maxAge : ∀ n, LastRead (cstr "max-age=") rest n ↔ lastNumber (givenNumber (cstr "max-age")) (directives rest) = some n
  sMaxage : ∀ n, LastRead (cstr "s-maxage=") rest n ↔ lastNumber (givenNumber (cstr "s-maxage")) (directives rest) = some n

structure TokensAsGiven (rest : CStr) : Prop where
  flags : ∀ f : Flag, (∃ t ∈ seenTokens rest, startsWith f.name t) ↔ ∃ d ∈ directives rest, Names f.name d
  maxAge : lastNumber (scanInt (cstr "max-age=")) (seenTokens rest) = lastNumber (givenNumber (cstr "max-age")) (directives rest)
  sMaxage : lastNumber (scanInt (cstr "s-maxage=")) (seenTokens rest) =
    lastNumber (givenNumber (cstr "s-maxage")) (directives rest)

section Tokens

variable {token : CStr} {cache : CacheHeaders} {f g : Flag}

theorem startsWith_agree {a b : CStr} (ha : startsWith a token) (hb : startsWith b token) :
    (a.map tolower).take b.length = (b.map tolower).take a.length := by
  rw [← ha, ← hb, ← map_take, ← map_take, take_take, take_take, Nat.min_comm]

theorem flag_unique (hf : startsWith f.name token) (hg : startsWith g.name token) : f = g := by
  have hagree := startsWith_agree hf hg
  revert hagree
  cases f <;> cases g <;> decide

theorem find_flag (token : CStr) (f : Flag) :
    (Flag.all.find? fun g => startsWith g.name token) = some f ↔ startsWith f.name token := by
  constructor
  · intro h
    simpa using find?_some h
  · intro h
    cases hfind : Flag.all.find? fun g => startsWith g.name token with
    | none =>
      have hnone := find?_eq_none.mp hfind f (by cases f <;> decide)
      exact absurd (decide_eq_true h) hnone
    | some g =>
      have hg : startsWith g.name token := by simpa using find?_some hfind
      rw [flag_unique hg h]

theorem find_flag_eq_none (token : CStr) : (Flag.all.find? fun g => startsWith g.name token) = none ↔
      ∀ f : Flag, ¬startsWith f.name token := by
  constructor
  · intro h f hf
    rw [(find_flag token f).mpr hf] at h
    cases h
  · intro h
    cases hfind : Flag.all.find? fun g => startsWith g.name token with
    | none => rfl
    | some g => exact absurd ((find_flag token g).mp hfind) (h g)

theorem flags_applyDirective (cache : CacheHeaders) (token : CStr) (f : Flag) :
    (applyDirective cache token).flags f = (cache.flags f || decide (startsWith f.name token)) := by
  rw [applyDirective]
  cases hfind : Flag.all.find? fun g => startsWith g.name token with
  | some g =>
    have hg := (find_flag token g).mp hfind
    by_cases hfg : f = g
    · subst hfg
      simp [setFlag, hg]
    · have hf : ¬startsWith f.name token := fun h => hfg (flag_unique h hg)
      simp [setFlag, Function.update_of_ne hfg, hf]
  | none =>
    have hf := (find_flag_eq_none token).mp hfind f
    simp only [hf, decide_false, Bool.or_false]
    split_ifs <;> rfl

variable {n : ℤ}

theorem scanInt_startsWith {text : CStr} (h : scanInt text token = some n) :
    startsWith text token := by
  rw [scanInt] at h
  split_ifs at h with htext
  · rw [startsWith, htext]

theorem startsWith_of_append {a b : CStr} (h : startsWith (a ++ b) token) : startsWith a token := by
  have htake := congrArg (take a.length) h
  rw [← map_take, ← map_take, take_take, length_append, take_left, Nat.min_eq_left (Nat.le_add_right ..)] at htake
  exact htake

theorem number_not_flag (f : Flag) : (startsWith (cstr "max-age") token → ¬startsWith f.name token) ∧
      (startsWith (cstr "s-maxage") token → ¬startsWith f.name token ∧ ¬startsWith (cstr "max-age") token) := by
  refine ⟨fun h hf => ?_, fun h => ⟨fun hf => ?_, fun hmax => ?_⟩⟩
  · have hagree := startsWith_agree h hf
    revert hagree
    cases f <;> decide
  · have hagree := startsWith_agree h hf
    revert hagree
    cases f <;> decide
  · exact absurd (startsWith_agree h hmax) (by decide)

theorem scanInt_none {a b : CStr} (h : ¬startsWith a token) : scanInt (a ++ b) token = none := by
  cases hscan : scanInt (a ++ b) token with
  | none => rfl
  | some n => exact absurd (startsWith_of_append (scanInt_startsWith hscan)) h

theorem numbers_applyDirective (cache : CacheHeaders) (token : CStr) : (applyDirective cache token).maxAge =
        (scanInt (cstr "max-age=") token).getD cache.maxAge ∧
      (applyDirective cache token).sMaxage = (scanInt (cstr "s-maxage=") token).getD cache.sMaxage := by
  rw [applyDirective, show cstr "max-age=" = cstr "max-age" ++ [61] from rfl,
    show cstr "s-maxage=" = cstr "s-maxage" ++ [61] from rfl]
  cases hfind : Flag.all.find? fun g => startsWith g.name token with
  | some g =>
    have hg := (find_flag token g).mp hfind
    rw [scanInt_none fun h => (number_not_flag g).1 h hg, scanInt_none fun h => ((number_not_flag g).2 h).1 hg]
    exact ⟨rfl, rfl⟩
  | none =>
    dsimp only
    split_ifs with hmax hs
    · rw [scanInt_none fun h => ((number_not_flag .pub).2 h).2 hmax]
      exact ⟨rfl, rfl⟩
    · rw [scanInt_none hmax]
      exact ⟨rfl, rfl⟩
    · rw [scanInt_none hmax, scanInt_none hs]
      exact ⟨rfl, rfl⟩

theorem xCache_applyDirective (cache : CacheHeaders) (token : CStr) : (applyDirective cache token).xCache = cache.xCache ∧
      (applyDirective cache token).xCacheLookup = cache.xCacheLookup := by
  rw [applyDirective]
  split
  · exact ⟨rfl, rfl⟩
  · split_ifs <;> exact ⟨rfl, rfl⟩

theorem lastNumber_cons (read : CStr → Option ℤ) (text : CStr) (texts : List CStr) (old : ℤ) :
    (lastNumber read texts).getD ((read text).getD old) = (lastNumber read (text :: texts)).getD old := by
  rw [lastNumber, lastNumber, filterMap_cons]
  cases read text with
  | none => rfl
  | some n =>
    dsimp only
    rw [getLast?_cons]
    cases (texts.filterMap read).getLast? <;> rfl

theorem foldl_applyDirective (tokens : List CStr) (cache : CacheHeaders) : tokens.foldl applyDirective cache =
      { cache with
        maxAge := (lastNumber (scanInt (cstr "max-age=")) tokens).getD cache.maxAge
        sMaxage := (lastNumber (scanInt (cstr "s-maxage=")) tokens).getD cache.sMaxage
        flags := fun f => cache.flags f || tokens.any fun t => startsWith f.name t } := by
  induction tokens generalizing cache with
  | nil => ext <;> simp [lastNumber]
  | cons token tokens ih =>
    obtain ⟨hmax, hs⟩ := numbers_applyDirective cache token
    obtain ⟨hx, hlookup⟩ := xCache_applyDirective cache token
    rw [foldl_cons, ih, hmax, hs, lastNumber_cons, lastNumber_cons, hx, hlookup]
    simp only [flags_applyDirective, any_cons, Bool.or_assoc]

end Tokens

theorem getD_eq_iff {a b : Option ℤ} : (∀ old, a.getD old = b.getD old) ↔ a = b := by
  constructor
  · intro h
    cases a with
    | none =>
      cases b with
      | none => rfl
      | some n => exact absurd (h (n + 1)) (by simp)
    | some m =>
      cases b with
      | none => exact absurd (h (m + 1)) (by simp)
      | some n => exact congrArg some (h 0)
  · rintro rfl old
    rfl

theorem tokens_iff (rest : CStr) : (∀ cache, (seenTokens rest).foldl applyDirective cache = specified rest cache) ↔
      TokensAsGiven rest := by
  constructor
  · intro h
    refine ⟨fun f => ?_, getD_eq_iff.mp fun old => ?_, getD_eq_iff.mp fun old => ?_⟩
    · have hflags := congrFun (congrArg CacheHeaders.flags (h ⟨0, 0, 0, 0, fun _ => false⟩)) f
      rw [foldl_applyDirective] at hflags
      simp only [specified, Bool.false_or] at hflags
      simpa using Bool.eq_iff_iff.mp hflags
    · have hmax := congrArg CacheHeaders.maxAge (h ⟨old, 0, 0, 0, fun _ => false⟩)
      rwa [foldl_applyDirective] at hmax
    · have hs := congrArg CacheHeaders.sMaxage (h ⟨0, old, 0, 0, fun _ => false⟩)
      rwa [foldl_applyDirective] at hs
  · intro h cache
    have hany (f : Flag) : ((seenTokens rest).any fun t => startsWith f.name t) = (directives rest).any fun d => Names f.name d :=
      Bool.eq_iff_iff.mpr (by simpa using h.flags f)
    rw [foldl_applyDirective, specified, h.maxAge, h.sMaxage]
    simp only [hany]

section Places

variable {rest before behind token word text number : CStr} {b : UInt8}

/-- The token stands behind `before`, and the code sees it there. -/
def Seen (rest before token : CStr) : Prop :=
  ReadBehind before ∧ ∃ behind, rest = before ++ (token ++ behind) ∧ token ≠ [] ∧
    (∀ b ∈ token, b ∉ delimitersAt before) ∧ ∀ b ∈ behind.head?, b ∈ delimitersAt before

theorem clean_of_all (h : text.all (· ∉ separators) = true) : ∀ b ∈ text, b ∉ separators := by
  simpa using h

theorem separators_of_later (h : b ∈ laterSeparators) : b ∈ separators := by
  have hall : laterSeparators.all (· ∈ separators) = true := by decide
  simpa using all_eq_true.mp hall b h

theorem separators_of_delimitersAt (h : b ∈ delimitersAt before) : b ∈ separators := by
  rw [delimitersAt] at h
  split_ifs at h
  · exact h
  · exact separators_of_later h

theorem delimitersAt_of_all (h : ∀ b ∈ before, b ∈ separators) : delimitersAt before = separators :=
  if_pos (by simpa using h)

theorem delimitersAt_of_token {blanks first more : CStr} (hne : first ≠ []) (hfirst : ∀ b ∈ first, b ∉ separators) :
    delimitersAt (blanks ++ (first ++ more)) = laterSeparators := by
  obtain ⟨b, first, rfl⟩ := exists_cons_of_ne_nil hne
  refine if_neg fun hall => hfirst b (mem_cons_self ..) ?_
  simpa using all_eq_true.mp hall b (by simp)

theorem mem_laterSeparators : b ∈ laterSeparators ↔ b = 32 ∨ b = 44 := by
  simp [laterSeparators]

section

variable {blanks first back : CStr} (h : FirstToken separators blanks first back)
include h

theorem readBehind_iff : ReadBehind (blanks ++ (first ++ back)) ↔ (blanks ++ (first ++ back)).head? = some 32 ∧ (first ≠ [] →
      ∃ d more, back = d :: more ∧ ∀ b ∈ more.getLast?, b ∈ laterSeparators) := by
  constructor
  · rintro ⟨hblank, hplace⟩
    refine ⟨hblank, fun hne => ?_⟩
    have hlast {e : UInt8} (he : e ∈ laterSeparators) (hget : (blanks ++ (first ++ back)).getLast? = some e) :
        ∃ d more, back = d :: more ∧ ∀ b ∈ more.getLast?, b ∈ laterSeparators := by
      cases back with
      | nil =>
        -- the last byte of the first directive is not a separator
        rw [append_nil, getLast?_append_of_ne_nil _ hne] at hget
        have hmem := h.inside e (mem_of_getLast? hget)
        exact absurd (separators_of_later he) hmem
      | cons d more =>
        refine ⟨d, more, rfl, fun b hb => ?_⟩
        rw [getLast?_append_of_ne_nil _ (by simp), getLast?_append_of_ne_nil _ (by simp), getLast?_cons, mem_def.mp hb] at hget
        cases hget
        exact he
    rcases hplace with hall | hget | hget | ⟨blanks', first', d, heq, hblanks, hne', hfirst, hd⟩
    · obtain ⟨b, first, rfl⟩ := exists_cons_of_ne_nil hne
      exact absurd (hall b (by simp)) (h.inside b (mem_cons_self ..))
    · exact hlast (mem_laterSeparators.mpr (.inl rfl)) hget
    · exact hlast (mem_laterSeparators.mpr (.inr rfl)) hget
    · have h' : FirstToken separators blanks' first' [d] :=
        ⟨hblanks, hfirst, by simpa using hd, fun hnil => absurd hnil hne'⟩
      obtain ⟨-, -, rfl⟩ := h.unique h' heq
      exact ⟨d, [], rfl, by simp⟩
  · rintro ⟨hblank, hback⟩
    refine ⟨hblank, ?_⟩
    by_cases hne : first = []
    · rw [hne, h.missing hne]
      exact .inl (by simpa using h.before)
    · obtain ⟨d, more, rfl, hlast⟩ := hback hne
      rcases eq_nil_or_concat more with rfl | ⟨more, e, rfl⟩
      · exact .inr (.inr (.inr ⟨blanks, first, d, rfl, h.before, hne, h.inside, h.ended d rfl⟩))
      · rw [concat_eq_append] at hlast ⊢
        have hget : (blanks ++ (first ++ d :: (more ++ [e]))).getLast? = some e := by
          rw [getLast?_append_of_ne_nil _ (by simp), getLast?_append_of_ne_nil _ (by simp),
            getLast?_cons, getLast?_concat, getD_some]
        rcases mem_laterSeparators.mp (hlast e (by simp)) with rfl | rfl
        · exact .inr (.inl hget)
        · exact .inr (.inr (.inl hget))

/-- The first token is seen behind the blanks, and the others are pieces of the rest. -/
theorem seen_iff (hblank : blanks.head? = some 32) (hne : first ≠ []) :
    Seen (blanks ++ (first ++ back)) before token ↔ (before = blanks ∧ token = first) ∨
      ∃ more, before = blanks ++ (first ++ back.take 1) ++ more ∧ PieceAt (· ∈ laterSeparators) (back.drop 1) more token := by
  constructor
  · rintro ⟨hread, behind, heq, htoken, hinside, hbehind⟩
    obtain ⟨blanks', first', tail, rfl, h'⟩ := exists_firstToken separators before
    by_cases hne' : first' = []
    · obtain rfl := h'.missing hne'
      subst hne'
      have hall : ∀ b ∈ blanks' ++ ([] ++ []), b ∈ separators := by simpa using h'.before
      rw [delimitersAt_of_all hall] at hinside hbehind
      have h₁ : FirstToken separators (blanks' ++ ([] ++ [])) token behind :=
        ⟨hall, hinside, hbehind, fun hnil => absurd hnil htoken⟩
      obtain ⟨hblanks, hfirst, -⟩ := h.unique h₁ heq
      exact .inl ⟨hblanks.symm, hfirst.symm⟩
    · obtain ⟨-, htail⟩ := (readBehind_iff h').mp hread
      obtain ⟨d, more, rfl, hlast⟩ := htail hne'
      rw [delimitersAt_of_token hne' h'.inside] at hinside hbehind
      have h₁ := h'.other_rest hne' (more ++ (token ++ behind))
      obtain ⟨rfl, rfl, rfl⟩ := h.unique h₁ (by simpa using heq)
      refine .inr ⟨more, by simp, behind, by simp, htoken, ?_, ?_, ?_⟩
      · simpa using hinside
      · simpa using hlast
      · simpa using hbehind
  · rintro (⟨rfl, rfl⟩ | ⟨more, rfl, behind, heq, htoken, hinside, hlast, hbehind⟩)
    · refine ⟨⟨hblank, .inl h.before⟩, back, rfl, hne, ?_⟩
      rw [delimitersAt_of_all h.before]
      exact ⟨h.inside, h.ended⟩
    · cases back with
      | nil =>
        rw [drop_nil, nil_eq, append_eq_nil_iff, append_eq_nil_iff] at heq
        exact absurd heq.2.1 htoken
      | cons d back =>
        rw [drop_one, tail_cons] at heq
        subst heq
        have h₁ := h.other_rest hne more
        have hbefore : blanks ++ (first ++ (d :: (more ++ (token ++ behind))).take 1) ++ more =
            blanks ++ (first ++ d :: more) := by simp
        rw [hbefore]
        refine ⟨(readBehind_iff h₁).mpr ⟨?_, fun _ => ⟨d, more, rfl, by simpa using hlast⟩⟩, behind, by simp, htoken, ?_⟩
        · rw [head?_append, hblank]
          rfl
        · rw [delimitersAt_of_token hne h.inside]
          exact ⟨by simpa using hinside, by simpa using hbehind⟩

end

theorem seenTokens_listing (rest : CStr) : Listing (seenTokens rest) (Seen rest) := by
  rw [seenTokens]
  split_ifs with hblank
  · obtain ⟨rest, rfl⟩ : ∃ t, rest = 32 :: t := by
      cases rest with
      | nil => cases hblank
      | cons b t => exact ⟨t, by rw [some.inj hblank]⟩
    obtain ⟨skipped, name, back, rfl, hfirst⟩ := exists_firstToken separators rest
    have h : FirstToken separators (32 :: skipped) name back :=
      ⟨forall_mem_cons.mpr ⟨by decide, hfirst.before⟩, hfirst.inside, hfirst.ended, hfirst.missing⟩
    rw [tail_cons, cacheTokens]
    by_cases hne : name = []
    · rw [hne, hfirst.missing hne, strtok_eq_none_iff.mpr (by simpa using hfirst.before)]
      refine listing_nil fun before token hseen => ?_
      obtain ⟨-, behind, heq, htoken, hinside, -⟩ := hseen
      have hall : ∀ b ∈ before ++ (token ++ behind), b ∈ separators := by
        rw [← heq]
        simpa [hne] using h.before
      obtain ⟨b, token, rfl⟩ := exists_cons_of_ne_nil htoken
      rw [delimitersAt_of_all fun b hb => hall b (mem_append_left _ hb)] at hinside
      exact hinside b (mem_cons_self ..) (hall b (by simp))
    · rw [hfirst.strtok_eq hne]
      have hlater := (pieces_listing (· ∈ laterSeparators) (back.drop 1)).shift (32 :: skipped ++ (name ++ back.take 1))
      refine (hlater.cons ?_).congr fun before token => (seen_iff h rfl hne).symm
      rintro _ _ ⟨more, rfl, -⟩
      have hpos := length_pos_of_ne_nil hne
      simp only [length_append]
      omega
  · refine listing_nil fun before token hseen => ?_
    obtain ⟨⟨hhead, -⟩, behind, rfl, -⟩ := hseen
    exact hblank (by rw [head?_append, hhead]; rfl)

theorem seen_word (hread : ReadBehind before) (hne : word ≠ []) (hword : ∀ b ∈ word, b ∉ delimitersAt before)
    (behind : CStr) : ∃ more back, behind = more ++ back ∧ Seen (before ++ (word ++ behind)) before (word ++ more) ∧
      ∀ b ∈ back.head?, b ∈ separators := by
  obtain ⟨more, back, rfl, hmore, hback⟩ := exists_split_on (· ∈ delimitersAt before) behind
  simp only [decide_eq_true_eq, decide_eq_false_iff_not] at hmore hback
  refine ⟨more, back, rfl, ⟨hread, back, by simp, by simp [hne], fun b hb => ?_, hback⟩,
    fun b hb => separators_of_delimitersAt (hback b hb)⟩
  rcases mem_append.mp hb with hb | hb
  · exact hword b hb
  · exact hmore b hb

theorem tolower_separators (h : b ∈ separators) : tolower b = b := by
  have hall : separators.all (fun b => tolower b = b) = true := by decide
  simpa using all_eq_true.mp hall b h

theorem flag_seen_iff (f : Flag) : (∃ t ∈ seenTokens rest, startsWith f.name t) ↔
    ∃ before word behind, rest = before ++ (word ++ behind) ∧ ReadBehind before ∧ word.map tolower = f.name := by
  have hlow : f.name.map tolower = f.name := by cases f <;> decide
  have hclean : ∀ b ∈ f.name, b ∉ separators := clean_of_all (by cases f <;> decide)
  have hne : f.name ≠ [] := by cases f <;> decide
  simp only [(seenTokens_listing rest).mem_iff, startsWith, hlow]
  constructor
  · rintro ⟨token, ⟨before, hread, behind, rfl, -⟩, hstart⟩
    exact ⟨before, token.take f.name.length, token.drop f.name.length ++ behind, by simp [← append_assoc], hread, hstart⟩
  · rintro ⟨before, word, behind, rfl, hread, hword⟩
    have hin : ∀ b ∈ word, b ∉ delimitersAt before := by
      intro b hb hmem
      have hsep := separators_of_delimitersAt hmem
      refine hclean b ?_ hsep
      rw [← hword, ← tolower_separators hsep]
      exact mem_map_of_mem hb
    obtain ⟨more, -, -, hseen, -⟩ := seen_word hread (by rintro rfl; exact hne hword.symm) hin behind
    refine ⟨word ++ more, ⟨before, hseen⟩, ?_⟩
    rw [← hword, length_map, take_left]

theorem startsNumber_iff : StartsNumber number ↔
    (if number.head? = some 43 ∨ number.head? = some 45 then number.drop 1 else number).head?.any isdigit := by
  constructor
  · rintro ⟨sign, digit, more, rfl, hsign, hdigit⟩
    simp only [mem_cons, not_mem_nil, or_false] at hsign
    rcases hsign with rfl | rfl | rfl
    · obtain ⟨-, hminus, hplus⟩ := isdigit_sign hdigit
      simp [hminus, hplus, hdigit]
    · simpa using hdigit
    · simpa using hdigit
  · intro h
    split_ifs at h with hsign
    · obtain ⟨sign, number, rfl⟩ : ∃ sign t, number = sign :: t :=
        exists_cons_of_ne_nil (by rintro rfl; simp at hsign)
      cases number with
      | nil => cases h
      | cons digit more => exact ⟨[sign], digit, more, rfl, by simpa using hsign, h⟩
    · cases number with
      | nil => cases h
      | cons digit more => exact ⟨[], digit, more, rfl, by simp, h⟩

theorem startsNumber_head (h : StartsNumber number) : ∀ b ∈ number.head?, isspace b = false := by
  obtain ⟨sign, digit, more, rfl, hsign, hdigit⟩ := h
  simp only [mem_cons, not_mem_nil, or_false] at hsign
  rcases hsign with rfl | rfl | rfl
  · simpa using (isdigit_sign hdigit).1
  · exact fun b hb => by cases hb; decide
  · exact fun b hb => by cases hb; decide

theorem scanInt_iff : scanInt text token = some n ↔ ∃ blanks number,
    token = text ++ (blanks ++ number) ∧ (∀ b ∈ blanks, isspace b = true) ∧ StartsNumber number ∧ n = atoi number := by
  rw [scanInt]
  constructor
  · intro h
    by_cases htext : token.take text.length = text
    · rw [if_pos htext] at h
      dsimp only at h
      by_cases hnumber : StartsNumber ((token.drop text.length).dropWhile isspace)
      · rw [if_pos (startsNumber_iff.mp hnumber)] at h
        refine ⟨(token.drop text.length).takeWhile isspace, _, ?_, fun b hb => mem_takeWhile_imp hb, hnumber, (some.inj h).symm⟩
        rw [takeWhile_append_dropWhile]
        exact (take_append_drop text.length token).symm.trans (congrArg (· ++ _) htext)
      · rw [if_neg (mt startsNumber_iff.mpr hnumber)] at h
        cases h
    · rw [if_neg htext] at h
      cases h
  · rintro ⟨blanks, number, rfl, hblanks, hnumber, rfl⟩
    rw [take_left, if_pos rfl, drop_left, (takeWhile_append_eq hblanks (startsNumber_head hnumber)).2]
    exact if_pos (startsNumber_iff.mp hnumber)

theorem digitsValue_append (hbehind : ∀ b ∈ behind.head?, isdigit b = false) :
    digitsValue (number ++ behind) = digitsValue number := by
  have hnone : behind.takeWhile isdigit = [] := by
    cases behind with
    | nil => rfl
    | cons b behind => simp [hbehind b rfl]
  rw [digitsValue, takeWhile_append, hnone, digitsValue]
  split_ifs with hall
  · rw [append_nil, takeWhile_eq_self_iff.mpr (takeWhile_eq_self_iff.mp ((List.takeWhile_prefix _).eq_of_length hall))]
  · rfl

theorem atoi_append (hnumber : StartsNumber number) (hbehind : ∀ b ∈ behind.head?, isdigit b = false) :
    atoi (number ++ behind) = atoi number := by
  obtain ⟨b, number, rfl⟩ : ∃ b t, number = b :: t := by
    obtain ⟨sign, digit, more, rfl, -⟩ := hnumber
    exact exists_cons_of_ne_nil (by simp)
  have hb := startsNumber_head hnumber b rfl
  have hdigits (t : CStr) : digitsValue (t ++ behind) = digitsValue t := digitsValue_append hbehind
  rw [atoi, atoi, strtol, strtol, cons_append, dropWhile_cons_of_neg (by simp [hb]), dropWhile_cons_of_neg (by simp [hb])]
  dsimp only
  rw [hdigits, ← cons_append, ← apply_ite (· ++ behind), hdigits]

theorem digit_not_separator (h : b ∈ separators) : isdigit b = false := by
  have hall : separators.all (!isdigit ·) = true := by decide
  simpa using all_eq_true.mp hall b h

theorem sign_not_separator {sign : CStr} (hsign : sign ∈ ([[], [43], [45]] : List CStr)) (hb : b ∈ sign) : b ∉ separators := by
  have hall : ([[], [43], [45]] : List CStr).all (·.all (· ∉ separators)) = true := by decide
  exact clean_of_all (all_eq_true.mp hall sign hsign) b hb

theorem numberRead_iff (htext : ∀ b ∈ text, b ∉ separators) :
    NumberRead text rest before n ↔ ∃ token, Seen rest before token ∧ scanInt text token = some n := by
  simp only [scanInt_iff]
  constructor
  · rintro ⟨hread, blanks, number, rfl, hblanks, ⟨sign, digit, behind, rfl, hsign, hdigit⟩, rfl⟩
    have hword : ∀ b ∈ text ++ (blanks ++ (sign ++ [digit])), b ∉ delimitersAt before := by
      intro b hb hmem
      have hsep := separators_of_delimitersAt hmem
      simp only [mem_append, mem_singleton] at hb
      rcases hb with hb | hb | hb | rfl
      · exact htext b hb hsep
      · exact (hblanks b hb).2 hmem
      · exact sign_not_separator hsign hb hsep
      · rw [digit_not_separator hsep] at hdigit
        cases hdigit
    obtain ⟨more, back, rfl, hseen, hback⟩ := seen_word hread (by simp) hword behind
    have hnumber : StartsNumber (sign ++ digit :: more) := ⟨sign, digit, more, rfl, hsign, hdigit⟩
    refine ⟨_, by simpa using hseen, blanks, sign ++ digit :: more, by simp, fun b hb => (hblanks b hb).1, hnumber, ?_⟩
    rw [← atoi_append hnumber fun b hb => digit_not_separator (hback b hb)]
    simp
  · rintro ⟨token, ⟨hread, behind, rfl, -, hinside, hbehind⟩, blanks, number, rfl, hblanks, hnumber, rfl⟩
    refine ⟨hread, blanks, number ++ behind, by simp, fun b hb => ⟨hblanks b hb, hinside b (by simp [hb])⟩, ?_, ?_⟩
    · obtain ⟨sign, digit, more, rfl, hsign, hdigit⟩ := hnumber
      exact ⟨sign, digit, more ++ behind, by simp, hsign, hdigit⟩
    · exact (atoi_append hnumber fun b hb => digit_not_separator (separators_of_delimitersAt (hbehind b hb))).symm

theorem lastRead_iff (htext : ∀ b ∈ text, b ∉ separators) :
    LastRead text rest n ↔ lastNumber (scanInt text) (seenTokens rest) = some n := by
  rw [lastNumber, (seenTokens_listing rest).getLast?_iff, LastRead]
  simp only [numberRead_iff htext, ne_none_iff_exists']
  constructor
  · rintro ⟨before, ⟨token, hseen, hscan⟩, hlast⟩
    exact ⟨before, token, hseen, hscan, fun before' token' hseen' ⟨n', hscan'⟩ => hlast before' n' ⟨token', hseen', hscan'⟩⟩
  · rintro ⟨before, token, hseen, hscan, hlast⟩
    exact ⟨before, ⟨token, hseen, hscan⟩, fun before' n' ⟨token', hseen', hscan'⟩ => hlast before' token' hseen' ⟨n', hscan'⟩⟩

theorem readAsGiven_iff : ReadAsGiven rest ↔ TokensAsGiven rest := by
  have hmax (n : ℤ) : LastRead (cstr "max-age=") rest n ↔
    lastNumber (scanInt (cstr "max-age=")) (seenTokens rest) = some n := lastRead_iff (clean_of_all (by decide))
  have hs (n : ℤ) : LastRead (cstr "s-maxage=") rest n ↔
    lastNumber (scanInt (cstr "s-maxage=")) (seenTokens rest) = some n := lastRead_iff (clean_of_all (by decide))
  constructor
  · rintro ⟨hflags, hmaxAge, hsMaxage⟩
    exact ⟨fun f => (flag_seen_iff f).trans (hflags f), ext fun n => (hmax n).symm.trans (hmaxAge n),
      ext fun n => (hs n).symm.trans (hsMaxage n)⟩
  · rintro ⟨hflags, hmaxAge, hsMaxage⟩
    exact ⟨fun f => (flag_seen_iff f).symm.trans (hflags f), fun n => by rw [hmax, hmaxAge], fun n => by rw [hs, hsMaxage]⟩

end Places

section Lines

variable {name rest : CStr}

theorem tolower_eq_blank (b : UInt8) : tolower b = 32 ↔ b = 32 := by
  rw [tolower]
  split_ifs with hupper
  · refine iff_of_false (fun h => ?_) fun h => ?_
    · simp only [UInt8.le_iff_toNat_le, ← UInt8.toNat_inj, UInt8.toNat_add] at hupper h
      simp at hupper h
      omega
    · subst h
      exact absurd hupper (by decide)
  · rfl

theorem startsWith_header {low text : CStr} (hname : name.map tolower = low)
    (htext : text.map tolower = low ++ [58, 32]) (rest : CStr) :
    startsWith text (name ++ 58 :: rest) ↔ rest.head? = some 32 := by
  have hlength : text.length = name.length + 2 := by
    have hlow := congrArg length htext
    rwa [length_map, length_append, ← hname, length_map] at hlow
  rw [startsWith, hlength, take_length_add_append, map_append, hname, htext, append_cancel_left_eq]
  cases rest with
  | nil => simp
  | cons b rest =>
    have hcolon : tolower 58 = 58 := by decide
    simp [tolower_eq_blank, hcolon]

section

variable {low : CStr} {c : UInt8} (hname : name.map tolower = c :: low)
include hname

theorem head_of_map : ∀ b ∈ (name ++ 58 :: rest).head?, tolower b = c := by
  cases name with
  | nil => cases hname
  | cons d name =>
    rintro b ⟨⟩
    exact (cons.inj hname).1

theorem take_ne_version (hc : c ≠ 104) (version : CStr) : (name ++ 58 :: rest).take 15 ≠ 72 :: version := by
  cases name with
  | nil => cases hname
  | cons d name =>
    intro h
    obtain ⟨rfl, -⟩ := cons.inj (show d :: (name ++ 58 :: rest).take 14 = 72 :: version from h)
    exact hc (cons.inj hname).1.symm

theorem not_startsWith_header (d : UInt8) (text : CStr) (hd : tolower d ≠ c) : ¬startsWith (d :: text) (name ++ 58 :: rest) :=
  not_startsWith_of_head d text fun b hb h => hd (h.symm.trans (head_of_map hname b hb))

theorem not_other_header (hc : c ≠ 120 ∧ c ≠ 104) (rest : CStr) : ¬startsWith (cstr "X-Cache: ") (name ++ 58 :: rest) ∧
      ¬startsWith (cstr "X-Cache-Lookup: ") (name ++ 58 :: rest) ∧
      (name ++ 58 :: rest).take 15 ≠ cstr "HTTP/1.0 200 OK" ∧
      (name ++ 58 :: rest).take 15 ≠ cstr "HTTP/1.1 200 OK" := by
  have hx : tolower 88 ≠ c := fun h => hc.1 h.symm
  exact ⟨not_startsWith_header hname 88 _ hx, not_startsWith_header hname 88 _ hx,
    take_ne_version hname hc.2 _, take_ne_version hname hc.2 _⟩

end

theorem parseHeaders_cacheControl (hname : name.map tolower = cstr "cache-control") (rest memory : CStr)
    (object : ObjectHeaders) :
    parseHeaders memory object (name ++ 58 :: rest) =
      some ({ object with cache := (seenTokens rest).foldl applyDirective object.cache }, none) := by
  have hstart := startsWith_header hname
    (show (cstr "Cache-Control: ").map tolower = cstr "cache-control" ++ [58, 32] by decide) rest
  rw [parseHeaders]
  by_cases hblank : rest.head? = some 32
  · have hlength : name.length = 13 := by
      rw [← length_map tolower, hname]
      rfl
    have hdrop : (name ++ 58 :: rest).drop 15 = rest.tail := by
      rw [show 15 = name.length + 2 by omega, drop_length_add_append]
      cases rest <;> rfl
    rw [if_pos (hstart.mpr hblank), hdrop, seenTokens, if_pos hblank]
  · obtain ⟨hx, hlookup, hold, hnew⟩ := not_other_header hname (by decide) rest
    have hlocation : ¬startsWith (cstr "Location: ") (name ++ 58 :: rest) :=
      not_startsWith_header hname 76 _ (by decide)
    rw [if_neg fun h => hblank (hstart.mp h), if_neg hx, if_neg hlookup, if_neg hold, if_neg hnew,
      if_neg hlocation, seenTokens, if_neg hblank]
    rfl

theorem parseHeaders_location (hname : name.map tolower = cstr "location") (rest memory : CStr) (object : ObjectHeaders) :
    parseHeaders memory object (name ++ 58 :: rest) =
      if rest.head? = some 32 then
        (scanLocation memory (name ++ 58 :: rest)).map fun location =>
          ({ object with location := some location }, none)
      else some (object, none) := by
  have hstart := startsWith_header hname (show (cstr "Location: ").map tolower = cstr "location" ++ [58, 32] by decide) rest
  obtain ⟨hx, hlookup, hold, hnew⟩ := not_other_header hname (by decide) rest
  have hcache : ¬startsWith (cstr "Cache-Control: ") (name ++ 58 :: rest) :=
    not_startsWith_header hname 67 _ (by decide)
  rw [parseHeaders, if_neg hcache, if_neg hx, if_neg hlookup, if_neg hold, if_neg hnew]
  simp only [hstart]

theorem word_eq_iff (rest : CStr) : ((rest.dropWhile isspace).takeWhile fun b => !isspace b) = headerValue rest ↔
      ∀ b ∈ headerValue rest, isspace b = false := by
  constructor
  · intro h b hb
    rw [← h] at hb
    simpa using mem_takeWhile_imp hb
  · intro h
    rw [headerValue] at h ⊢
    generalize rest.dropWhile isspace = text at h ⊢
    have hblanks : ∀ b ∈ text.rtakeWhile isspace, isspace b = true := fun b hb =>
      mem_rtakeWhile_imp hb
    have hvalue : ∀ b ∈ text.rdropWhile isspace, (!isspace b) = true := fun b hb => by simp [h b hb]
    have hjoin : text.rdropWhile isspace ++ text.rtakeWhile isspace = text :=
      rdropWhile_append_rtakeWhile
    conv_lhs => rw [← hjoin]
    rw [takeWhile_append_of_pos hvalue]
    cases htail : text.rtakeWhile isspace with
    | nil => simp
    | cons b t =>
      have hb := hblanks b (by rw [htail]; exact mem_cons_self ..)
      simp [hb]

theorem word_eq_nil_iff (rest : CStr) :
    ((rest.dropWhile isspace).takeWhile fun b => !isspace b) = [] ↔ headerValue rest = [] := by
  rw [headerValue, rdropWhile_eq_nil_iff]
  cases htext : rest.dropWhile isspace with
  | nil => simp
  | cons b t =>
    have hb : isspace b = false := by
      have hhead := head?_dropWhile_not isspace rest
      rw [htext] at hhead
      simpa using hhead
    simp [hb]

theorem eq_of_tolower_l (b : UInt8) (h : tolower b = 108) : b = 76 ∨ b = 108 :=
  forall_byte (P := fun b => tolower b = 108 → b = 76 ∨ b = 108) (by decide +kernel) b h

theorem exists_location (hname : name.map tolower = cstr "location") :
    ∃ c d tail, name = c :: d :: tail ∧ (c = 76 ∨ c = 108) ∧ ¬(d = 76 ∨ d = 108) ∧ tail.length = 6 := by
  have hlength : name.length = 8 := by
    rw [← length_map tolower, hname]
    rfl
  rcases name with _ | ⟨c, _ | ⟨d, tail⟩⟩
  · cases hlength
  · cases hlength
  · obtain ⟨hc, hrest⟩ := cons.inj (show tolower c :: (d :: tail).map tolower = 108 :: cstr "ocation" from hname)
    have hd : tolower d = 111 := (cons.inj hrest).1
    refine ⟨c, d, tail, rfl, eq_of_tolower_l c hc, ?_, Nat.succ.inj (Nat.succ.inj hlength)⟩
    rintro (rfl | rfl)
    · cases hd
    · cases hd

theorem scanLocation_eq (hname : name.map tolower = cstr "location") (rest memory : CStr) :
    scanLocation memory (name ++ 58 :: rest) =
      if name.tail = cstr "ocation" then
        let word := (rest.dropWhile isspace).takeWhile fun b => !isspace b
        if word = [] then some memory else if word.length < maxUrlLen then some word else none
      else some memory := by
  obtain ⟨c, d, tail, rfl, hL, hnot, htail⟩ := exists_location hname
  have hlength : (d :: tail).length + 1 = 8 := by rw [length_cons, htail]
  have hdrop : (c :: d :: tail ++ 58 :: rest).dropWhile (fun b => b = 76 ∨ b = 108) = d :: tail ++ 58 :: rest := by
    simp [hL, hnot]
  have htake : (d :: tail ++ 58 :: rest).take 8 = cstr "ocation:" ↔ d :: tail = cstr "ocation" := by
    rw [← hlength, take_length_add_append]
    change d :: tail ++ [58] = cstr "ocation" ++ [58] ↔ _
    exact append_left_inj [58]
  have hafter : (d :: tail ++ 58 :: rest).drop 8 = rest := by
    rw [← hlength, drop_length_add_append]
    rfl
  rw [scanLocation, hdrop]
  simp only [htake, hafter, tail_cons]
  simp

end Lines

theorem scanLocation_iff {name : CStr} (hname : name.map tolower = cstr "location") (rest : CStr) :
    (∀ memory, scanLocation memory (name ++ 58 :: rest) = some (headerValue rest)) ↔
      name.tail = cstr "ocation" ∧ headerValue rest ≠ [] ∧
        (∀ b ∈ headerValue rest, isspace b = false) ∧ (headerValue rest).length < maxUrlLen := by
  have hother : ¬∀ memory, some memory = some (headerValue rest) := fun h =>
    absurd (congrArg length (some.inj (h (0 :: headerValue rest)))) (by simp)
  simp only [scanLocation_eq hname, word_eq_nil_iff]
  by_cases htail : name.tail = cstr "ocation"
  · simp only [if_pos htail]
    by_cases hnil : headerValue rest = []
    · simp only [if_pos hnil]
      exact iff_of_false hother fun h => h.2.1 hnil
    · simp only [if_neg hnil]
      rw [← word_eq_iff]
      constructor
      · intro h
        have hword := h []
        split_ifs at hword with hlength
        have heq := some.inj hword
        exact ⟨htail, hnil, heq, by rwa [← heq]⟩
      · rintro ⟨-, -, hword, hlength⟩ memory
        rw [hword, if_pos hlength]
  · simp only [if_neg htail]
    exact iff_of_false hother fun h => htail h.1

theorem parseHeaders_iff (name rest : CStr) : (name.map tolower = cstr "cache-control" →
      ((∀ memory object, parseHeaders memory object (name ++ 58 :: rest) =
          some ({ object with cache := specified rest object.cache }, none)) ↔
        ReadAsGiven rest)) ∧
    (name.map tolower = cstr "location" → ((∀ memory object, parseHeaders memory object (name ++ 58 :: rest) =
          some ({ object with location := some (headerValue rest) }, none)) ↔
        rest.head? = some 32 ∧ name.tail = cstr "ocation" ∧ headerValue rest ≠ [] ∧ (∀ b ∈ headerValue rest, isspace b = false) ∧
          (headerValue rest).length < maxUrlLen)) := by
  constructor
  · intro hname
    rw [readAsGiven_iff, ← tokens_iff]
    constructor
    · intro h cache
      have hobject := h [] ⟨cache, none⟩
      rw [parseHeaders_cacheControl hname] at hobject
      exact congrArg (fun r => r.1.cache) (some.inj hobject)
    · intro h memory object
      rw [parseHeaders_cacheControl hname, h]
  · intro hname
    rw [← scanLocation_iff hname]
    simp only [parseHeaders_location hname]
    by_cases hblank : rest.head? = some 32
    · simp only [hblank, if_true, true_and]
      constructor
      · intro h memory
        have hobject := h memory ⟨⟨0, 0, 0, 0, fun _ => false⟩, none⟩
        obtain ⟨location, hscan, heq⟩ := map_eq_some_iff.mp hobject
        rw [hscan]
        exact congrArg (fun r => r.1.location) heq
      · intro h memory object
        rw [h memory]
        rfl
    · simp only [hblank, if_false, false_and, iff_false]
      intro h
      have hobject := h [] ⟨⟨0, 0, 0, 0, fun _ => false⟩, none⟩
      exact absurd (congrArg (fun r => r.1.location) (some.inj hobject)) (by simp)

def emptyHeaders : ObjectHeaders := ⟨⟨-1, -1, -1, -1, fun _ => false⟩, none⟩

theorem usual_tokensAsGiven : TokensAsGiven (cstr " No-Cache, max-age=60\r\n") where
  flags f := by cases f <;> decide +kernel
  maxAge := by decide +kernel
  sMaxage := by decide +kernel

theorem usual_headers_read : parseHeaders [] emptyHeaders (cstr "cache-control: No-Cache, max-age=60\r\n") =
      some ({ emptyHeaders with
        cache := specified (cstr " No-Cache, max-age=60\r\n") emptyHeaders.cache }, none) ∧
    parseHeaders [] emptyHeaders (cstr "location: /a\r\n") =
      some ({ emptyHeaders with location := some (headerValue (cstr " /a\r\n")) }, none) :=
  ⟨((parseHeaders_iff (cstr "cache-control") (cstr " No-Cache, max-age=60\r\n")).1
      (by decide)).mpr (readAsGiven_iff.mpr usual_tokensAsGiven) [] emptyHeaders,
    ((parseHeaders_iff (cstr "location") (cstr " /a\r\n")).2 (by decide)).mpr (by decide +kernel) [] emptyHeaders⟩

theorem headers_misread : ((parseHeaders [] emptyHeaders (cstr "Cache-Control: max-age=60, public;private\r\n")).map
      fun r => r.1.cache.flags .priv) = some false ∧
    (specified (cstr " max-age=60, public;private\r\n") emptyHeaders.cache).flags .priv = true ∧
    ((parseHeaders [] emptyHeaders (cstr "Cache-Control: publicity\r\n")).map fun r => r.1.cache.flags .pub) = some true ∧
    (specified (cstr " publicity\r\n") emptyHeaders.cache).flags .pub = false ∧
    ((parseHeaders [] emptyHeaders (cstr "Cache-Control: MAX-AGE=60\r\n")).map fun r => r.1.cache.maxAge) = some (-1) ∧
    (specified (cstr " MAX-AGE=60\r\n") emptyHeaders.cache).maxAge = 60 ∧
    ((parseHeaders (cstr "stack") emptyHeaders (cstr "LOCATION: /a\r\n")).map
      fun r => r.1.location) = some (some (cstr "stack")) ∧
    headerValue (cstr " /a\r\n") = cstr "/a" := by
  refine ⟨?_, ?_, ?_, ?_, ?_, ?_, ?_, ?_⟩ <;> decide +kernel

end Amplet.HttpHeaders
