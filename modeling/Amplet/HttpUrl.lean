import Amplet.Bytes

/-!
# URLs of the HTTP test

Embedding of `split_url` in `src/tests/http/http.c`. A server name keeps its scheme, so
that a server followed by a path is again a URL. The base of relative URLs is kept in
static variables. An absolute path is copied with `strncpy` and not terminated: from
`MAX_PATH_LEN` bytes on it reads on into the memory behind the buffer.
-/

namespace Amplet.HttpUrl
open List Bytes

def question : UInt8 := 63

def maxDnsNameLen : ℕ := 256
def maxPathLen : ℕ := 2048

structure UrlBase where
  server : CStr
  path : CStr
  scheme : CStr
deriving DecidableEq, Repr

/-- `strncasecmp(s, t, strlen(t)) == 0` -/
def startsWith (t s : CStr) : Prop := (s.take t.length).map tolower = t.map tolower

instance (t s : CStr) : Decidable (startsWith t s) := inferInstanceAs (Decidable (_ = _))

def absoluteUrl (base : Option UrlBase) (url : CStr) : Option (CStr × CStr) :=
  if startsWith (cstr "http://") url then some (cstr "http", url)
  else if startsWith (cstr "https://") url then some (cstr "https", url)
  else if startsWith (cstr "//") url then
    let scheme := (base.map UrlBase.scheme).getD (cstr "http")
    some (scheme, scheme ++ cstr "://" ++ url.drop 2)
  else if startsWith (cstr "/") url then none
  else if base.isSome then none
  else some (cstr "http", cstr "http" ++ cstr "://" ++ url)

def hostAndPath (rest : CStr) : CStr × CStr :=
  if slash ∈ rest then
    (rest.takeWhile (· ≠ slash), (rest.dropWhile (· ≠ slash)).take (maxPathLen - 1))
  else if question ∈ rest then
    (rest.takeWhile (· ≠ question), (slash :: rest.dropWhile (· ≠ question)).take (maxPathLen - 1))
  else (rest, [slash])

def splitHost (url : CStr) (start : ℕ) : Option (CStr × CStr) :=
  let server := url.take start ++ (hostAndPath (url.drop start)).1
  if server.length < maxDnsNameLen then some (server, (hostAndPath (url.drop start)).2) else none

def dirname (path : CStr) : CStr :=
  match strrchr slash path with
  | none => []
  | some i => path.take (i + 1)

def parentDir (dir : CStr) : CStr :=
  if dir.length ≤ 1 then dir else dirname dir.dropLast

/-- Every leading `../` goes up one level, as long as there is one. -/
def climb : ℕ → CStr → CStr → CStr × CStr
  | 0, dir, url => (dir, url)
  | n + 1, dir, url =>
    if url.take 3 = cstr "../" then climb n (parentDir dir) (url.drop 3) else (dir, url)

def relativePath (basePath url : CStr) : CStr :=
  let (dir, rest) := climb url.length (dirname basePath) url
  dir ++ rest.take (maxPathLen - basePath.length - 1)

def copyPath (memory url : CStr) : CStr :=
  if url.length < maxPathLen then url else url.take maxPathLen ++ memory

structure Split where
  server : CStr
  path : CStr
  base : Option UrlBase

/-- A server name that is too long, or a path without a base, ends the process. -/
def splitUrl (memory : CStr) (base : Option UrlBase) (url : CStr) (set : Bool) : Option Split :=
  match absoluteUrl base url with
  | some (scheme, full) =>
    match splitHost full (scheme.length + 3) with
    | none => none
    | some (server, path) =>
      some ⟨server, path, if base.isNone || set then some ⟨server, path, scheme⟩ else base⟩
  | none =>
    match base with
    | none => none
    | some b =>
      if startsWith (cstr "/") url then some ⟨b.server, copyPath memory url, base⟩
      else some ⟨b.server, relativePath b.path url, base⟩

structure IsServer (server : CStr) : Prop where
  parts : ∃ scheme host, server = scheme ++ host ∧ slash ∉ host ∧
    (scheme.map tolower = cstr "http://" ∨ scheme.map tolower = cstr "https://")
  short : server.length < maxDnsNameLen

structure IsPath (path : CStr) : Prop where
  rooted : ∃ rest, path = slash :: rest
  short : path.length < maxPathLen

structure UrlBase.Valid (base : UrlBase) : Prop where
  server : IsServer base.server
  path : IsPath base.path
  scheme : base.scheme = cstr "http" ∨ base.scheme = cstr "https"

def Terminated (base : Option UrlBase) (url : CStr) : Prop :=
  absoluteUrl base url = none → startsWith (cstr "/") url → url.length < maxPathLen

instance (base : Option UrlBase) (url : CStr) : Decidable (Terminated base url) :=
  inferInstanceAs (Decidable (_ → _ → _))

theorem isPath_hostAndPath (rest : CStr) : slash ∉ (hostAndPath rest).1 ∧ IsPath (hostAndPath rest).2 := by
  have htake (a : CStr) : ((slash :: a).take (maxPathLen - 1)) = slash :: a.take (maxPathLen - 2) := rfl
  rw [hostAndPath]
  split_ifs with hslash hquestion
  · refine ⟨fun hmem => by simpa using mem_takeWhile_imp hmem, ?_⟩
    have hne : rest.dropWhile (· ≠ slash) ≠ [] := by
      intro hnil
      have hall := dropWhile_eq_nil_iff.mp hnil
      simpa using hall slash hslash
    obtain ⟨b, t, hdrop⟩ := exists_cons_of_ne_nil hne
    have hb : b = slash := by
      have hhead := head?_dropWhile_not (fun x => decide (x ≠ slash)) rest
      rw [hdrop] at hhead
      simpa using hhead
    simp only [hdrop, hb, htake]
    refine ⟨⟨_, rfl⟩, ?_⟩
    simp only [length_cons, length_take, maxPathLen]
    omega
  · refine ⟨fun hmem => hslash ((takeWhile_sublist _).subset hmem), ?_⟩
    simp only [htake]
    refine ⟨⟨_, rfl⟩, ?_⟩
    simp only [length_cons, length_take, maxPathLen]
    omega
  · exact ⟨hslash, ⟨[], rfl⟩, by simp [maxPathLen]⟩

variable {url scheme host server memory : CStr} {base : Option UrlBase}

theorem isServer_of_startsWith {n : ℕ} (hn : scheme.length = n) (h : startsWith scheme url) (hhost : slash ∉ host)
    (hscheme : scheme.map tolower = cstr "http://" ∨ scheme.map tolower = cstr "https://")
    (hshort : (url.take n ++ host).length < maxDnsNameLen) : IsServer (url.take n ++ host) := by
  subst hn
  refine ⟨⟨url.take scheme.length, host, rfl, hhost, ?_⟩, hshort⟩
  rwa [h]

theorem startsWith_append_self (s t : CStr) : startsWith s (s ++ t) := by
  simp [startsWith]

theorem startsWith_cons (c b : UInt8) (t s : CStr) : startsWith (c :: t) (b :: s) ↔ tolower b = tolower c ∧ startsWith t s := by
  simp [startsWith]

theorem not_startsWith_of_head (c : UInt8) (t : CStr) (h : ∀ b ∈ url.head?, tolower b ≠ tolower c) :
    ¬startsWith (c :: t) url := by
  cases url with
  | nil => simp [startsWith]
  | cons b url => exact fun hstart => h b rfl ((startsWith_cons c b t url).mp hstart).1

theorem splitHost_valid (hbase : ∀ b ∈ base, b.Valid) {full : CStr}
    (habs : absoluteUrl base url = some (scheme, full)) {path : CStr}
    (hsplit : splitHost full (scheme.length + 3) = some (server, path)) :
    IsServer server ∧ IsPath path ∧ (scheme = cstr "http" ∨ scheme = cstr "https") := by
  have hfull : (scheme = cstr "http" ∨ scheme = cstr "https") ∧ startsWith (scheme ++ cstr "://") full := by
    rw [absoluteUrl] at habs
    split_ifs at habs with h₁ h₂ h₃ h₄ h₅
    · cases habs
      exact ⟨Or.inl rfl, h₁⟩
    · cases habs
      exact ⟨Or.inr rfl, h₂⟩
    · cases habs
      refine ⟨?_, startsWith_append_self _ _⟩
      cases base with
      | none => exact Or.inl rfl
      | some b => exact (hbase b rfl).scheme
    · cases habs
      exact ⟨Or.inl rfl, startsWith_append_self _ _⟩
  obtain ⟨hscheme, hstart⟩ := hfull
  rw [splitHost] at hsplit
  split_ifs at hsplit with hshort
  cases hsplit
  obtain ⟨hhost, hpath⟩ := isPath_hostAndPath (full.drop (scheme.length + 3))
  refine ⟨isServer_of_startsWith (by simp; rfl) hstart hhost ?_ hshort, hpath, hscheme⟩
  rcases hscheme with rfl | rfl
  · exact Or.inl (by decide)
  · exact Or.inr (by decide)

theorem hostAndPath_append (hhost : slash ∉ host) (rest : CStr) :
    hostAndPath (host ++ slash :: rest) = (host, (slash :: rest).take (maxPathLen - 1)) := by
  obtain ⟨htake, hdrop⟩ := Delimited.takeWhile_ne_cons hhost rest
  rw [hostAndPath, if_pos (by simp), htake, hdrop]

theorem splitHost_append {rest : CStr} (hhost : slash ∉ host)
    (hshort : (scheme ++ host).length < maxDnsNameLen) (hlong : (slash :: rest).length < maxPathLen)
    :
    splitHost (scheme ++ host ++ slash :: rest) scheme.length = some (scheme ++ host, slash :: rest) := by
  rw [splitHost, append_assoc, take_left, drop_left, hostAndPath_append hhost, take_of_length_le (by omega)]
  exact if_pos hshort

theorem splitUrl_append {path : CStr} (hserver : IsServer server) (hpath : IsPath path) (memory : CStr) (hbase : base.isSome) :
    splitUrl memory base (server ++ path) false = some ⟨server, path, base⟩ := by
  obtain ⟨⟨scheme, host, rfl, hhost, hscheme⟩, hshort⟩ := hserver
  obtain ⟨⟨rest, rfl⟩, hlong⟩ := hpath
  have hsplit := splitHost_append hhost hshort hlong
  have hnone : base.isNone = false := by
    cases base with
    | none => cases hbase
    | some b => rfl
  have htake (n : ℕ) (hn : n ≤ scheme.length) :
      ((scheme ++ host ++ slash :: rest).take n).map tolower = (scheme.map tolower).take n := by
    rw [append_assoc, take_append_of_le_length hn, map_take]
  rcases hscheme with hscheme | hscheme
  · have hlen : scheme.length = 7 := by
      rw [← length_map tolower, hscheme]
      rfl
    have habs : absoluteUrl base (scheme ++ host ++ slash :: rest) = some (cstr "http", scheme ++ host ++ slash :: rest) := by
      rw [absoluteUrl, if_pos]
      rw [startsWith, htake _ (by rw [hlen]; decide), hscheme]
      decide
    rw [hlen] at hsplit
    simp only [splitUrl, habs]
    rw [show (cstr "http").length + 3 = 7 from rfl, hsplit, hnone]
    rfl
  · have hlen : scheme.length = 8 := by
      rw [← length_map tolower, hscheme]
      rfl
    have habs : absoluteUrl base (scheme ++ host ++ slash :: rest) = some (cstr "https", scheme ++ host ++ slash :: rest) := by
      rw [absoluteUrl, if_neg, if_pos]
      · rw [startsWith, htake _ (by rw [hlen]; decide), hscheme]
        decide
      · rw [startsWith, htake _ (by rw [hlen]; decide), hscheme]
        decide
    rw [hlen] at hsplit
    simp only [splitUrl, habs]
    rw [show (cstr "https").length + 3 = 8 from rfl, hsplit, hnone]
    rfl

theorem dirname_rooted (rest : CStr) : ∃ more, dirname (slash :: rest) = slash :: more ∧ more.length ≤ rest.length := by
  rcases last_split slash rest with hnone | ⟨a, b, rfl, hb⟩
  · exact ⟨[], by simp [dirname, strrchr, strrchr_eq_none hnone], by simp⟩
  · refine ⟨a ++ [slash], ?_, by simp⟩
    have hlast := strrchr_append_cons (slash :: a) hb
    rw [dirname, ← cons_append, hlast]
    dsimp only
    rw [take_length_add_append]
    rfl

theorem parentDir_rooted (rest : CStr) : ∃ more, parentDir (slash :: rest) = slash :: more ∧ more.length ≤ rest.length := by
  rw [parentDir]
  split_ifs with hlen
  · exact ⟨rest, rfl, le_rfl⟩
  · obtain ⟨x, t, rfl⟩ : ∃ x t, rest = x :: t := by
      cases rest with
      | nil => simp at hlen
      | cons x t => exact ⟨x, t, rfl⟩
    rw [dropLast_cons_cons]
    obtain ⟨more, hmore, hle⟩ := dirname_rooted (x :: t).dropLast
    exact ⟨more, hmore, by simp at hle ⊢; omega⟩

theorem climb_rooted (n : ℕ) (dir url : CStr) :
    ∃ more rest, climb n (slash :: dir) url = (slash :: more, rest) ∧ more.length ≤ dir.length := by
  induction n generalizing dir url with
  | zero => exact ⟨dir, url, rfl, le_rfl⟩
  | succ n ih =>
    rw [climb]
    split_ifs
    · obtain ⟨up, hup, hle⟩ := parentDir_rooted dir
      obtain ⟨more, rest, hclimb, hle'⟩ := ih up (url.drop 3)
      exact ⟨more, rest, by rw [hup, hclimb], hle'.trans hle⟩
    · exact ⟨dir, url, rfl, le_rfl⟩

theorem isPath_relativePath {basePath : CStr} (h : IsPath basePath) (url : CStr) : IsPath (relativePath basePath url) := by
  obtain ⟨⟨rest, rfl⟩, hshort⟩ := h
  obtain ⟨dir, hdir, hle⟩ := dirname_rooted rest
  obtain ⟨more, url', hclimb, hle'⟩ := climb_rooted url.length dir url
  simp only [relativePath, hdir, hclimb]
  refine ⟨⟨_, rfl⟩, ?_⟩
  simp only [length_append, length_cons, length_take, maxPathLen] at hshort ⊢
  omega

theorem rooted_of_startsWith (hstart : startsWith (cstr "/") url) : ∃ rest, url = slash :: rest := by
  have hslash : (cstr "/").map tolower = [slash] := by decide
  rw [startsWith, hslash] at hstart
  cases url with
  | nil => simp at hstart
  | cons b rest =>
    have hb : tolower b = slash := by simpa [cstr] using hstart
    refine ⟨rest, ?_⟩
    rw [tolower] at hb
    split_ifs at hb with hupper
    · simp only [UInt8.le_iff_toNat_le, ← UInt8.toNat_inj, UInt8.toNat_add, slash] at hupper hb
      simp at hupper hb
      omega
    · rw [hb]

theorem rooted_copyPath (hstart : startsWith (cstr "/") url) (memory : CStr) : ∃ rest, copyPath memory url = slash :: rest := by
  obtain ⟨rest, rfl⟩ := rooted_of_startsWith hstart
  rw [copyPath]
  split_ifs
  · exact ⟨rest, rfl⟩
  · exact ⟨rest.take 2047 ++ memory, rfl⟩

theorem length_copyPath_lt (memory url : CStr) : (copyPath memory url).length < maxPathLen ↔ url.length < maxPathLen := by
  rw [copyPath]
  split_ifs with hlt
  · rfl
  · simp only [length_append, length_take]
    omega

theorem splitUrl_valid {set : Bool} {split : Split} (h : splitUrl memory base url set = some split)
    (hbase : ∀ b ∈ base, b.Valid) :
    IsServer split.server ∧ split.base.isSome ∧ (∀ b ∈ split.base, b.Valid) ∧ (∃ rest, split.path = slash :: rest) ∧
      (split.path.length < maxPathLen ↔ Terminated base url) := by
  unfold splitUrl at h
  cases habs : absoluteUrl base url with
  | some p =>
    obtain ⟨scheme, full⟩ := p
    simp only [habs] at h
    cases hhost : splitHost full (scheme.length + 3) with
    | none => simp [hhost] at h
    | some q =>
      obtain ⟨server, path⟩ := q
      simp only [hhost, Option.some.injEq] at h
      obtain ⟨hserver, hpath, hscheme⟩ := splitHost_valid hbase habs hhost
      have hterm : Terminated base url := fun hnone => by simp [habs] at hnone
      subst h
      refine ⟨hserver, ?_, ?_, hpath.rooted, fun _ => hterm, fun _ => hpath.short⟩
      · cases base <;> cases set <;> simp
      · intro b hb
        dsimp only at hb
        split_ifs at hb
        · cases hb
          exact ⟨hserver, hpath, hscheme⟩
        · exact hbase b hb
  | none =>
    simp only [habs] at h
    cases base with
    | none => simp at h
    | some b =>
      have hb := hbase b rfl
      dsimp only at h
      split_ifs at h with hstart
      · cases h
        refine ⟨hb.server, rfl, hbase, rooted_copyPath hstart memory, ?_⟩
        rw [length_copyPath_lt]
        exact ⟨fun hlt _ _ => hlt, fun hterm => hterm habs hstart⟩
      · cases h
        have hpath := isPath_relativePath hb.path url
        exact ⟨hb.server, rfl, hbase, hpath.rooted, fun _ _ hyes => absurd hyes hstart, fun _ => hpath.short⟩

theorem splitUrl_unterminated {set : Bool} {split : Split}
    (h : splitUrl memory base url set = some split) (hurl : ¬ Terminated base url) :
    split.path.take (maxPathLen - 1) = url.take (maxPathLen - 1) ∧ split.base = base := by
  simp only [Terminated, Classical.not_imp] at hurl
  obtain ⟨habs, hstart, hlong⟩ := hurl
  unfold splitUrl at h
  rw [habs] at h
  cases base with
  | none => cases h
  | some b =>
    simp only [hstart, if_true, Option.some.injEq] at h
    subst h
    refine ⟨?_, rfl⟩
    rw [copyPath, if_neg hlong, take_append_of_le_length, take_take]
    · congr 1
    · rw [length_take]
      omega

end Amplet.HttpUrl
