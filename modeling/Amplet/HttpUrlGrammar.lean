import Amplet.HttpUrl

/-!
# The grammar of URLs

What a reference in a page means, by the forms it can have, and where `split_url` in
`src/tests/http/http.c` departs from it. `split_url` looks for a slash first, wherever
it is, and takes the last slash of the base path with its query.
-/

namespace Amplet.HttpUrlGrammar
open List Option Bytes HttpUrl Delimited

inductive Reference
  | absolute (scheme rest : CStr)
  | schemeRelative (rest : CStr)
  | absolutePath (rest : CStr)
  | relative (path : CStr)
deriving DecidableEq, Repr

def Reference.text : Reference → CStr
  | .absolute scheme rest => scheme ++ (cstr "://" ++ rest)
  | .schemeRelative rest => cstr "//" ++ rest
  | .absolutePath rest => slash :: rest
  | .relative path => path

def Reference.WellFormed : Reference → Prop
  | .absolute scheme _ =>
    scheme.map tolower = cstr "http" ∨ scheme.map tolower = cstr "https"
  | .schemeRelative _ => True
  | .absolutePath rest => rest.head? ≠ some slash
  | .relative path => path.head? ≠ some slash ∧ ¬startsWith (cstr "http://") path ∧
      ¬startsWith (cstr "https://") path

def authority (rest : CStr) : CStr × CStr :=
  let after := rest.dropWhile fun b => b ≠ slash ∧ b ≠ question
  (rest.takeWhile fun b => b ≠ slash ∧ b ≠ question,
    if after.head? = some slash then after else slash :: after)

def climbs : CStr → ℕ
  | 46 :: 46 :: 47 :: path => climbs path + 1
  | _ => 0

def upwards (n : ℕ) (directories : List CStr) : List CStr :=
  directories.take (max 1 (directories.length - n))

def beforeQuery (path : CStr) : CStr := path.takeWhile (· ≠ question)

def query (path : CStr) : CStr := path.dropWhile (· ≠ question)

def resolve (basePath path : CStr) : CStr :=
  joined slash (upwards (climbs path) (lines slash (beforeQuery basePath))) ++ path.drop (3 * climbs path)

/-- Without a base, a relative path is the URL of a page without its scheme. -/
def Reference.meaning (base : Option UrlBase) : Reference → Option (CStr × CStr)
  | .absolute scheme rest =>
    some (scheme ++ cstr "://" ++ (authority rest).1, (authority rest).2)
  | .schemeRelative rest =>
    some ((base.map UrlBase.scheme).getD (cstr "http") ++ cstr "://" ++ (authority rest).1, (authority rest).2)
  | .absolutePath rest => base.map fun b => (b.server, slash :: rest)
  | .relative path =>
    match base with
    | none => some (cstr "http" ++ cstr "://" ++ (authority path).1, (authority path).2)
    | some b => some (b.server, resolve b.path path)

def SlashFirst (rest : CStr) : Prop :=
  slash ∈ rest → question ∉ rest.takeWhile (· ≠ slash)

instance (rest : CStr) : Decidable (SlashFirst rest) := inferInstanceAs (Decidable (_ → _))

/-- The directories that a query adds to those `n` levels above the base path. -/
def surplus (n : ℕ) (basePath : CStr) : List CStr :=
  (upwards n (lines slash basePath)).drop (upwards n (lines slash (beforeQuery basePath))).length

/-- Room for the reference and no directories from a query, or a reference that repeats these and
is cut by as much. -/
def Resolves (basePath path : CStr) : Prop :=
  let rest := path.drop (3 * climbs path)
  let room := maxPathLen - basePath.length - 1
  if slash ∈ query basePath ∧ climbs path + 1 < basePath.count slash then
    rest = joined slash (surplus (climbs path) basePath) ++ rest.take room
  else rest.length ≤ room

def Reference.Regular (base : Option UrlBase) : Reference → Prop
  | .absolute _ rest => SlashFirst rest
  | .schemeRelative rest => SlashFirst rest
  | .absolutePath _ => True
  | .relative path =>
    match base with
    | none => SlashFirst path
    | some b => Resolves b.path path

section Hosts

variable {host after : CStr}

theorem authority_append (hslash : slash ∉ host) (hquestion : question ∉ host)
    (hafter : ∀ b ∈ after.head?, b = slash ∨ b = question) :
    authority (host ++ after) = (host, if after.head? = some slash then after else slash :: after) := by
  have hhost : ∀ b ∈ host, decide (b ≠ slash ∧ b ≠ question) = true := fun b hb =>
    decide_eq_true ⟨fun h => hslash (h ▸ hb), fun h => hquestion (h ▸ hb)⟩
  have hstop : ∀ b ∈ after.head?, decide (b ≠ slash ∧ b ≠ question) = false := fun b hb =>
    decide_eq_false fun h => (hafter b hb).elim h.1 h.2
  obtain ⟨htake, hdrop⟩ := takeWhile_append_eq hhost hstop
  rw [authority, htake, hdrop]

theorem exists_host (rest : CStr) : ∃ host after, rest = host ++ after ∧ slash ∉ host ∧
    question ∉ host ∧ ∀ b ∈ after.head?, b = slash ∨ b = question := by
  refine ⟨rest.takeWhile fun b => b ≠ slash ∧ b ≠ question, rest.dropWhile fun b => b ≠ slash ∧ b ≠ question, by simp, ?_, ?_, ?_⟩
  · exact fun hmem => by simpa using mem_takeWhile_imp hmem
  · exact fun hmem => by simpa using mem_takeWhile_imp hmem
  · intro b hb
    have hstop := head?_dropWhile_not (fun b => decide (b ≠ slash ∧ b ≠ question)) rest
    rw [mem_def.mp hb] at hstop
    by_contra hnot
    rw [not_or] at hnot
    simp [hnot.1, hnot.2] at hstop

theorem slashFirst_of_slash (hslash : slash ∉ host) (hquestion : question ∉ host) : SlashFirst (host ++ slash :: after) := by
  intro _
  rwa [(takeWhile_ne_cons hslash after).1]

theorem hostAndPath_question (hslash : slash ∉ host ++ question :: after)
    (hquestion : question ∉ host) (hshort : (slash :: question :: after).length < maxPathLen) :
    hostAndPath (host ++ question :: after) = (host, slash :: question :: after) := by
  obtain ⟨htake, hdrop⟩ := takeWhile_ne_cons hquestion after
  rw [hostAndPath, if_neg hslash, if_pos (by simp), htake, hdrop, take_of_length_le (by omega)]

theorem mem_takeWhile_slash (hslash : slash ∉ host) : question ∈ (host ++ question :: after).takeWhile (· ≠ slash) := by
  have hne : ∀ b ∈ host, decide (b ≠ slash) = true := fun b hb =>
    decide_eq_true fun h => hslash (h ▸ hb)
  rw [takeWhile_append_of_pos hne, takeWhile_cons_of_pos (by decide)]
  simp

theorem hostAndPath_iff {rest : CStr} (hshort : (authority rest).2.length < maxPathLen) :
    ((hostAndPath rest).1 = (authority rest).1 ↔ SlashFirst rest) ∧ (SlashFirst rest → hostAndPath rest = authority rest) := by
  obtain ⟨host, after, rfl, hslash, hquestion, hafter⟩ := exists_host rest
  rw [authority_append hslash hquestion hafter] at hshort ⊢
  cases after with
  | nil =>
    have hfirst : SlashFirst (host ++ []) := fun h => absurd (by simpa using h) hslash
    have heq : hostAndPath (host ++ []) = (host, [slash]) := by
      rw [append_nil, hostAndPath, if_neg hslash, if_neg hquestion]
    rw [heq]
    exact ⟨iff_of_true rfl hfirst, fun _ => rfl⟩
  | cons b after =>
    rcases hafter b rfl with rfl | rfl
    · have hle : (slash :: after).length < maxPathLen := hshort
      rw [hostAndPath_append hslash, take_of_length_le (by omega)]
      exact ⟨iff_of_true rfl (slashFirst_of_slash hslash hquestion), fun _ => rfl⟩
    · by_cases hlater : slash ∈ host ++ question :: after
      · -- the host is taken to reach up to the slash in the query
        have hmem : question ∈ (host ++ question :: after).takeWhile (· ≠ slash) :=
          mem_takeWhile_slash hslash
        have hnot : ¬SlashFirst (host ++ question :: after) := fun h => h hlater hmem
        refine ⟨iff_of_false (fun h => hquestion ?_) hnot, fun h => absurd h hnot⟩
        rw [hostAndPath, if_pos hlater] at h
        dsimp only at h
        exact h ▸ hmem
      · rw [hostAndPath_question hlater hquestion hshort]
        exact ⟨iff_of_true rfl fun h => absurd h hlater, fun _ => rfl⟩

end Hosts

section Directories

variable {path basePath url : CStr} {directories : List CStr} {n : ℕ}

theorem dirname_append {b : CStr} (a : CStr) (hb : slash ∉ b) : dirname (a ++ slash :: b) = a ++ [slash] := by
  rw [dirname, strrchr_append_cons a hb]
  dsimp only
  rw [take_length_add_append]
  rfl

theorem dirname_first (first rest : CStr) : dirname (first ++ slash :: rest) = first ++ slash :: dirname rest := by
  rcases last_split slash rest with hnone | ⟨a, b, rfl, hb⟩
  · rw [dirname_append first hnone, dirname, strrchr_eq_none hnone]
  · rw [dirname_append a hb, ← cons_append, ← append_assoc, dirname_append _ hb, append_assoc, cons_append]

theorem dirname_eq (path : CStr) : dirname path = joined slash (lines slash path) := by
  induction path using line_induction slash with
  | last text h => rw [lines_of_notMem h, dirname, strrchr_eq_none h, joined_nil]
  | line first rest h ih => rw [dirname_first, lines_first h, joined_cons, ih]

theorem parentDir_joined (hplain : ∀ d ∈ directories, slash ∉ d) (hroot : directories.head? = some []) :
    parentDir (joined slash directories) = joined slash (upwards 1 directories) := by
  cases directories using reverseRecOn with
  | nil => simp at hroot
  | append_singleton init last =>
    by_cases hinit : init = []
    · subst hinit
      obtain rfl : last = [] := by simpa using hroot
      rfl
    · have hpos : 0 < init.length := length_pos_iff.mpr hinit
      have hlast : slash ∉ last := hplain last (by simp)
      have hdir : joined slash (init ++ [last]) = joined slash init ++ last ++ [slash] := by
        rw [joined_append, joined_cons, joined_nil, append_assoc]
      have hlong := length_le_length_joined (d := slash) (init ++ [last])
      rw [length_append, length_singleton] at hlong
      have hup : upwards 1 (init ++ [last]) = init := by
        rw [upwards, length_append, length_singleton, Nat.add_sub_cancel, Nat.max_eq_right hpos, take_left]
      rw [parentDir, if_neg (by omega), hup, hdir, dropLast_concat, dirname_eq,
        lines_joined fun d hd => hplain d (mem_append_left _ hd), lines_of_notMem hlast,
        append_nil]

theorem upwards_one_upwards (hne : directories ≠ []) (n : ℕ) :
    upwards n (upwards 1 directories) = upwards (n + 1) directories := by
  have hpos := length_pos_iff.mpr hne
  rw [upwards, upwards, upwards, take_take, length_take]
  congr 1
  omega

theorem head?_upwards (n : ℕ) (directories : List CStr) : (upwards n directories).head? = directories.head? := by
  rw [upwards, head?_take, if_neg (by omega)]

theorem upwards_zero (hne : directories ≠ []) : upwards 0 directories = directories := by
  have hpos := length_pos_iff.mpr hne
  exact take_of_length_le (by omega)

theorem climbs_of_not (h : url.take 3 ≠ cstr "../") : climbs url = 0 := by
  unfold climbs
  split
  · exact absurd rfl h
  · rfl

theorem climb_joined {fuel : ℕ} (hfuel : url.length ≤ fuel)
    (hplain : ∀ d ∈ directories, slash ∉ d) (hroot : directories.head? = some []) :
    climb fuel (joined slash directories) url = (joined slash (upwards (climbs url) directories), url.drop (3 * climbs url)) := by
  have hne : directories ≠ [] := by
    rintro rfl
    cases hroot
  induction fuel generalizing directories url with
  | zero =>
    obtain rfl : url = [] := eq_nil_of_length_eq_zero (Nat.le_zero.mp hfuel)
    rw [climb, climbs, upwards_zero hne]
    · rfl
    · simp
  | succ fuel ih =>
    rw [climb]
    split_ifs with hup
    · obtain ⟨rest, rfl⟩ : ∃ rest, url = 46 :: 46 :: 47 :: rest := by
        refine ⟨url.drop 3, ?_⟩
        conv_lhs => rw [← take_append_drop 3 url, hup]
        rfl
      have hroot' := (head?_upwards 1 directories).trans hroot
      have hmore : upwards 1 directories ≠ [] := by
        intro hnil
        rw [hnil] at hroot'
        cases hroot'
      have hlength : rest.length ≤ fuel := by
        simp only [length_cons] at hfuel
        omega
      have hplain' : ∀ d ∈ upwards 1 directories, slash ∉ d :=
        fun d hd => hplain d (mem_of_mem_take hd)
      have hnext := ih hlength hplain' hroot' hmore
      rw [parentDir_joined hplain hroot]
      change climb fuel _ rest = _
      rw [hnext, upwards_one_upwards hne]
      rfl
    · rw [climbs_of_not hup, upwards_zero hne]
      rfl

theorem beforeQuery_append_query (path : CStr) : beforeQuery path ++ query path = path :=
  takeWhile_append_dropWhile

theorem lines_query (path : CStr) : ∃ more, lines slash path = lines slash (beforeQuery path) ++ more ∧
      more.length = (query path).count slash := by
  have happend : lines slash path = lines slash (beforeQuery path) ++
      lines slash (unfinished slash (beforeQuery path) ++ query path) := by
    conv_lhs => rw [← beforeQuery_append_query path]
    exact lines_append _ _
  refine ⟨_, happend, ?_⟩
  have hcount := congrArg length happend
  have hsum : path.count slash = (beforeQuery path).count slash + (query path).count slash := by
    rw [← count_append, beforeQuery_append_query]
  rw [length_append, length_lines, length_lines] at hcount
  omega

theorem upwards_isPrefix (n : ℕ) (directories more : List CStr) : upwards n directories <+: upwards n (directories ++ more) := by
  rw [upwards, upwards, length_append]
  cases directories with
  | nil =>
    rw [take_nil]
    exact nil_prefix
  | cons d directories =>
    have hle : max 1 ((d :: directories).length - n) ≤ (d :: directories).length := by
      rw [length_cons]
      omega
    rw [← take_append_of_le_length hle]
    exact take_prefix_take_left (by omega)

theorem upwards_surplus (n : ℕ) (path : CStr) :
    upwards n (lines slash path) = upwards n (lines slash (beforeQuery path)) ++ surplus n path := by
  obtain ⟨more, hmore, -⟩ := lines_query path
  obtain ⟨t, ht⟩ := upwards_isPrefix n (lines slash (beforeQuery path)) more
  rw [← hmore] at ht
  rw [surplus, ← ht, drop_left]

theorem lines_rooted (rest : CStr) : (lines slash (slash :: rest)).head? = some [] := by
  have hfirst : lines slash ([] ++ slash :: rest) = [] :: lines slash rest :=
    lines_first not_mem_nil rest
  rw [nil_append] at hfirst
  rw [hfirst]
  rfl

theorem surplus_eq_nil_iff (rest : CStr) (n : ℕ) : surplus n (slash :: rest) = [] ↔
      ¬(slash ∈ query (slash :: rest) ∧ n + 1 < (slash :: rest).count slash) := by
  obtain ⟨more, hmore, hlength⟩ := lines_query (slash :: rest)
  have hbefore : beforeQuery (slash :: rest) = slash :: beforeQuery rest :=
    takeWhile_cons_of_pos (by decide)
  have hpos : 0 < (lines slash (beforeQuery (slash :: rest))).length := by
    rw [hbefore]
    exact length_pos_iff.mpr fun hnil => by simpa [hnil] using lines_rooted (beforeQuery rest)
  have hall := length_lines slash (slash :: rest)
  have hsum := congrArg length hmore
  rw [length_append] at hsum
  have hmem : slash ∈ query (slash :: rest) ↔ 0 < more.length := by
    rw [hlength, count_pos_iff]
  rw [surplus, drop_eq_nil_iff, upwards, upwards, length_take, length_take, hmem]
  omega

theorem relativePath_eq (rest url : CStr) : relativePath (slash :: rest) url =
      joined slash (upwards (climbs url) (lines slash (beforeQuery (slash :: rest)))) ++
        (joined slash (surplus (climbs url) (slash :: rest)) ++
          (url.drop (3 * climbs url)).take (maxPathLen - (slash :: rest).length - 1)) := by
  have hclimb := climb_joined (le_refl url.length) (fun d hd => notMem_of_mem_lines hd) (lines_rooted rest)
  rw [relativePath, dirname_eq, hclimb]
  dsimp only
  rw [upwards_surplus, joined_append, append_assoc]

theorem relativePath_iff (rest url : CStr) : relativePath (slash :: rest) url = resolve (slash :: rest) url ↔
      Resolves (slash :: rest) url := by
  rw [relativePath_eq, resolve, append_cancel_left_eq, Resolves]
  split_ifs with hquery
  · exact eq_comm
  · rw [(surplus_eq_nil_iff rest _).mpr hquery, joined_nil, nil_append, take_eq_self_iff]

end Directories

section Forms

variable {base : Option UrlBase} {scheme full url rest server path memory : CStr} {set : Bool}

theorem splitUrl_absolute (habs : absoluteUrl base url = some (scheme, full)) :
    (∃ base', splitUrl memory base url set = some ⟨server, path, base'⟩) ↔
      splitHost full (scheme.length + 3) = some (server, path) := by
  simp only [splitUrl, habs]
  cases splitHost full (scheme.length + 3) with
  | none => simp
  | some q =>
    obtain ⟨server', path'⟩ := q
    simp [Split.mk.injEq]

theorem splitHost_iff (pre : CStr) (hserver : (pre ++ (authority rest).1).length < maxDnsNameLen)
    (hpath : (authority rest).2.length < maxPathLen) :
    splitHost (pre ++ rest) pre.length = some (pre ++ (authority rest).1, (authority rest).2) ↔
      SlashFirst rest := by
  obtain ⟨hhost, hall⟩ := hostAndPath_iff hpath
  rw [splitHost, take_left, drop_left]
  constructor
  · intro h
    split_ifs at h
    obtain ⟨hserver', -⟩ := Prod.mk.inj (some.inj h)
    exact hhost.mp (append_cancel_left hserver')
  · intro h
    rw [hall h, if_pos hserver]

theorem startsWith_append_iff {t u : CStr} (hlength : t.length ≤ u.length) (rest : CStr) :
    startsWith t (u ++ rest) ↔ (u.map tolower).take t.length = t.map tolower := by
  rw [startsWith, take_append_of_le_length hlength, map_take]

theorem startsWith_slash (rest : CStr) : startsWith (cstr "/") (slash :: rest) :=
  startsWith_append_self (cstr "/") rest

theorem length_scheme (scheme : CStr) : (scheme ++ cstr "://").length = scheme.length + 3 := by
  rw [length_append]
  rfl

theorem absoluteUrl_scheme (hscheme : scheme.map tolower = cstr "http" ∨
    scheme.map tolower = cstr "https") (base : Option UrlBase) (rest : CStr) :
    ∃ name, absoluteUrl base (scheme ++ (cstr "://" ++ rest)) =
      some (name, scheme ++ (cstr "://" ++ rest)) ∧ name.length = scheme.length := by
  rw [← append_assoc]
  have hmap : (scheme ++ cstr "://").map tolower = scheme.map tolower ++ cstr "://" := by
    rw [map_append]
    rfl
  have hlength : (scheme ++ cstr "://").length = (scheme.map tolower).length + 3 := by
    rw [length_scheme, length_map]
  rcases hscheme with hscheme | hscheme
  · rw [hscheme] at hmap hlength
    have hstart : startsWith (cstr "http://") (scheme ++ cstr "://" ++ rest) := by
      rw [startsWith_append_iff (by rw [hlength]; decide), hmap]
      decide
    refine ⟨cstr "http", by rw [absoluteUrl, if_pos hstart], ?_⟩
    rw [← hscheme, length_map]
  · rw [hscheme] at hmap hlength
    have hnot : ¬startsWith (cstr "http://") (scheme ++ cstr "://" ++ rest) := by
      rw [startsWith_append_iff (by rw [hlength]; decide), hmap]
      decide
    have hstart : startsWith (cstr "https://") (scheme ++ cstr "://" ++ rest) := by
      rw [startsWith_append_iff (by rw [hlength]; decide), hmap]
      decide
    refine ⟨cstr "https", by rw [absoluteUrl, if_neg hnot, if_pos hstart], ?_⟩
    rw [← hscheme, length_map]

theorem not_startsWith_http (url : CStr) (h : ∀ b ∈ url.head?, b = slash) :
    ¬startsWith (cstr "http://") url ∧ ¬startsWith (cstr "https://") url := by
  have hhead : ∀ b ∈ url.head?, tolower b ≠ tolower 104 := by
    intro b hb
    rw [h b hb]
    decide
  exact ⟨not_startsWith_of_head 104 _ hhead, not_startsWith_of_head 104 _ hhead⟩

theorem absoluteUrl_schemeRelative (base : Option UrlBase) (rest : CStr) :
    absoluteUrl base (cstr "//" ++ rest) = some ((base.map UrlBase.scheme).getD (cstr "http"),
      (base.map UrlBase.scheme).getD (cstr "http") ++ cstr "://" ++ rest) := by
  obtain ⟨hhttp, hhttps⟩ := not_startsWith_http (cstr "//" ++ rest) fun b hb =>
    (some.inj hb).symm
  rw [absoluteUrl, if_neg hhttp, if_neg hhttps, if_pos (startsWith_append_self _ _)]
  rfl

theorem absoluteUrl_absolutePath (base : Option UrlBase) (h : rest.head? ≠ some slash) :
    absoluteUrl base (slash :: rest) = none := by
  obtain ⟨hhttp, hhttps⟩ := not_startsWith_http (slash :: rest) (by simp)
  have hone : ¬startsWith (cstr "//") (slash :: rest) := by
    intro hstart
    obtain ⟨t, rfl⟩ := rooted_of_startsWith ((startsWith_cons slash slash (cstr "/") rest).mp hstart).2
    exact h rfl
  rw [absoluteUrl, if_neg hhttp, if_neg hhttps, if_neg hone, if_pos (startsWith_slash rest)]

theorem absoluteUrl_relative (base : Option UrlBase) (h : (Reference.relative url).WellFormed) :
    ¬startsWith (cstr "/") url ∧ absoluteUrl base url =
      if base.isSome then none else some (cstr "http", cstr "http" ++ cstr "://" ++ url) := by
  obtain ⟨hhead, hhttp, hhttps⟩ := h
  have hone : ¬startsWith (cstr "/") url := by
    intro hstart
    obtain ⟨t, rfl⟩ := rooted_of_startsWith hstart
    exact hhead rfl
  have htwo : ¬startsWith (cstr "//") url := by
    intro hstart
    apply hone
    cases url with
    | nil => exact absurd hstart (by decide)
    | cons b url =>
      exact (startsWith_cons slash b [] url).mpr ⟨((startsWith_cons slash b [slash] url).mp hstart).1, rfl⟩
  exact ⟨hone, by rw [absoluteUrl, if_neg hhttp, if_neg hhttps, if_neg htwo, if_neg hone]⟩

end Forms

/-- Within the limits of the buffers: exactly if no slash follows a question mark that ends the
host, and no directories come from the query of the base path. -/
theorem splitUrl_grammar_iff {base : Option UrlBase} (hbase : ∀ b ∈ base, b.Valid) (memory : CStr)
    (set : Bool) {reference : Reference} (hform : reference.WellFormed) {server path : CStr}
    (hmeaning : reference.meaning base = some (server, path))
    (hserver : server.length < maxDnsNameLen) (hpath : path.length < maxPathLen) :
    (∃ base', splitUrl memory base reference.text set = some ⟨server, path, base'⟩) ↔
      reference.Regular base := by
  cases reference with
  | absolute scheme rest =>
    cases hmeaning
    obtain ⟨name, habs, hlength⟩ := absoluteUrl_scheme hform base rest
    rw [Reference.text, splitUrl_absolute habs, hlength, ← length_scheme, ← append_assoc]
    exact splitHost_iff _ hserver hpath
  | schemeRelative rest =>
    cases hmeaning
    rw [Reference.text, splitUrl_absolute (absoluteUrl_schemeRelative base rest), ← length_scheme]
    exact splitHost_iff _ hserver hpath
  | absolutePath rest =>
    obtain ⟨b, rfl, hb⟩ := map_eq_some_iff.mp hmeaning
    obtain ⟨rfl, rfl⟩ := Prod.mk.inj hb
    refine iff_of_true ⟨some b, ?_⟩ trivial
    rw [Reference.text, splitUrl, absoluteUrl_absolutePath (some b) hform]
    dsimp only
    rw [if_pos (startsWith_slash rest), copyPath, if_pos hpath]
  | relative url =>
    obtain ⟨hone, habs⟩ := absoluteUrl_relative base hform
    cases base with
    | none =>
      cases hmeaning
      rw [if_neg (by simp)] at habs
      rw [Reference.text, splitUrl_absolute habs, ← length_scheme]
      exact splitHost_iff _ hserver hpath
    | some b =>
      cases hmeaning
      rw [if_pos (by simp)] at habs
      obtain ⟨rest, hrooted⟩ := (hbase b rfl).path.rooted
      simp only [Reference.text, splitUrl, habs, if_neg hone, some.injEq, Split.mk.injEq,
        true_and, exists_and_left, exists_eq', and_true, Reference.Regular, hrooted]
      exact relativePath_iff rest url

def queryBase : UrlBase := ⟨cstr "http://h", cstr "/a?x=/y", cstr "http"⟩

theorem queryBase_valid : queryBase.Valid where
  server := ⟨⟨cstr "http://", cstr "h", rfl, by decide, Or.inl rfl⟩, by decide⟩
  path := ⟨⟨cstr "a?x=/y", rfl⟩, by decide⟩
  scheme := Or.inl rfl

theorem climbing_reference_split : ∃ base', splitUrl [] (some queryBase) (cstr "../z") false =
    some ⟨cstr "http://h", cstr "/z", base'⟩ := by
  have hbase : ∀ b ∈ some queryBase, b.Valid := by
    rintro b ⟨⟩
    exact queryBase_valid
  have hform : (Reference.relative (cstr "../z")).WellFormed := by
    refine ⟨?_, ?_, ?_⟩ <;> decide
  refine (splitUrl_grammar_iff hbase [] false hform (by decide +kernel) (by decide) (by decide)).mpr ?_
  rw [Reference.Regular, Resolves]
  decide +kernel

theorem query_slash_misread : (splitUrl [] none (cstr "http://h?x=/y") true).map (fun s => (s.server, s.path)) =
      some (cstr "http://h?x=", cstr "/y") ∧
    (Reference.absolute (cstr "http") (cstr "h?x=/y")).meaning none = some (cstr "http://h", cstr "/?x=/y") ∧
    (splitUrl [] (some queryBase) (cstr "z") false).map (fun s => (s.server, s.path)) = some (cstr "http://h", cstr "/a?x=/z") ∧
    (Reference.relative (cstr "z")).meaning (some queryBase) = some (cstr "http://h", cstr "/z") := by
  refine ⟨?_, ?_, ?_, ?_⟩ <;> decide +kernel

end Amplet.HttpUrlGrammar
