import Amplet.ResolverSocket

/-!
# Address limits of resolved names

Embedding of `amp_resolve_add` and `amp_resolve_callback` in `src/common/ampresolv.c`
and of the resolving part of `run_test` in `src/measured/run.c`. Answers come in any
order; each callback is one event here. An entry also records which query it answers.
The test gets the list that the worker sends back, see `ampResolveGetList_sendAnswers`.
-/

namespace Amplet.AddressLimit
open List Option Bytes Delimited TargetLists ResolverSocket

inductive RecordType
  | a
  | aaaa
deriving DecidableEq, Repr

def RecordType.family : RecordType → Family
  | .a => .inet
  | .aaaa => .inet6

structure Block where
  name : CStr
  max : ℤ
  qcount : ℤ
  ok : Bool
  family : UInt8
deriving DecidableEq, Repr

structure Entry where
  owner : ℕ
  family : Family
  addr : Option (List UInt8)
  canonname : CStr
deriving DecidableEq, Repr

/-- A numeric name has no block; `inFlight` are the questions that the resolver works on. -/
structure Worker where
  queries : List Query
  blocks : List (Option Block)
  inFlight : List (ℕ × RecordType)
  addrlist : List Entry
deriving DecidableEq, Repr

inductive Event
  | add
  | answer (owner : ℕ) (type : RecordType) (data : Option (List (List UInt8)))
deriving DecidableEq, Repr

variable (getNumericAddress : CStr → Option (Family × List UInt8)) {i n turns : ℕ} {option : CStr}

def questions (family : UInt8) : List RecordType :=
  (if family = 0 ∨ family = 2 then [.a] else []) ++ (if family = 0 ∨ family = 10 then [.aaaa] else [])

def ampResolveAdd (w : Worker) (q : Query) : Worker :=
  match getNumericAddress q.name with
  | some (family, addr) =>
    { w with
      blocks := w.blocks ++ [none]
      addrlist := ⟨w.blocks.length, family, some addr, q.name⟩ :: w.addrlist }
  | none =>
    { w with
      blocks := w.blocks ++ [some ⟨q.name, if 0 < q.count then q.count.toNat else -1,
        if q.family = 0 then 2 else 1, false, q.family⟩]
      inFlight := w.inFlight ++ (questions q.family).map (w.blocks.length, ·) }

def takeRecords (owner : ℕ) (type : RecordType) (name : CStr) : ℤ → List (List UInt8) → List Entry → ℤ × List Entry
  | max, [], addrlist => (max, addrlist)
  | max, record :: data, addrlist =>
    if max = -1 ∨ 0 < max then
      takeRecords owner type name (if 0 < max then max - 1 else max) data (⟨owner, type.family, some record, name⟩ :: addrlist)
    else (max, addrlist)

def dummyEntries (owner : ℕ) (b : Block) : List Entry :=
  (if b.family = 10 ∨ b.family = 0 then [⟨owner, .inet6, none, b.name⟩] else []) ++
    (if b.family = 2 ∨ b.family = 0 then [⟨owner, .inet, none, b.name⟩] else [])

def underLock (owner : ℕ) (type : RecordType) (data : Option (List (List UInt8))) (b : Block)
    (addrlist : List Entry) : Block × List Entry :=
  let (b, addrlist) :=
    match data with
    | none => (b, addrlist)
    | some data =>
      let (max, addrlist) := takeRecords owner type b.name b.max data addrlist
      ({ b with max, ok := true }, addrlist)
  ({ b with qcount := b.qcount - 1 }, addrlist)

def ampResolveCallback (owner : ℕ) (type : RecordType) (data : Option (List (List UInt8)))
    (b : Block) (addrlist : List Entry) : Block × List Entry :=
  let (b, addrlist) := underLock owner type data b addrlist
  (b, if b.qcount ≤ 0 ∧ b.ok = false then dummyEntries owner b ++ addrlist else addrlist)

def step (w : Worker) : Event → Option Worker
  | .add =>
    match w.queries with
    | [] => none
    | q :: queries => some (ampResolveAdd getNumericAddress { w with queries } q)
  | .answer owner type data =>
    if (owner, type) ∈ w.inFlight then
      match w.blocks[owner]? with
      | some (some b) =>
        let (b, addrlist) := ampResolveCallback owner type data b w.addrlist
        some { w with
          blocks := w.blocks.set owner (some b)
          inFlight := w.inFlight.erase (owner, type)
          addrlist }
      | _ => none
    else none

def run (w : Worker) (events : List Event) : Option Worker :=
  events.foldlM (step getNumericAddress) w

def start (queries : List Query) : Worker := ⟨queries, [], [], []⟩

def owned (owner : ℕ) (addrlist : List Entry) : ℕ :=
  addrlist.countP fun entry => entry.owner = owner ∧ entry.addr.isSome

def records (owner : ℕ) : Event → ℕ
  | .answer o _ (some data) => if o = owner then data.length else 0
  | _ => 0

def delivered (owner : ℕ) (events : List Event) : ℕ := (events.map (records owner)).sum

section

variable (owner : ℕ) (type : RecordType) (name : CStr)

theorem takeRecords_unlimited (data : List (List UInt8)) (addrlist : List Entry) :
    takeRecords owner type name (-1) data addrlist = (-1, (data.map fun record =>
      (⟨owner, type.family, some record, name⟩ : Entry)).reverse ++ addrlist) := by
  induction data generalizing addrlist with
  | nil => rfl
  | cons record data ih =>
    rw [takeRecords, if_pos (Or.inl rfl), if_neg (by decide), ih]
    simp

theorem takeRecords_limited (max : ℕ) (data : List (List UInt8)) (addrlist : List Entry) :
    takeRecords owner type name max data addrlist = (((max - data.length : ℕ) : ℤ), ((data.take max).map fun record =>
        (⟨owner, type.family, some record, name⟩ : Entry)).reverse ++ addrlist) := by
  induction data generalizing max addrlist with
  | nil => simp [takeRecords]
  | cons record data ih =>
    cases max with
    | zero => simp [takeRecords]
    | succ max =>
      have hpos : (0 : ℤ) < (max + 1 : ℕ) := by omega
      rw [takeRecords, if_pos (Or.inr hpos), if_pos hpos,
        show ((max + 1 : ℕ) : ℤ) - 1 = max by omega, ih]
      simp

theorem takeRecords_spec (max : ℤ) (data : List (List UInt8)) (addrlist : List Entry) : ∃ taken : List (List UInt8),
      (takeRecords owner type name max data addrlist).2 =
        (taken.map fun record => (⟨owner, type.family, some record, name⟩ : Entry)) ++ addrlist ∧
      (max = -1 → taken.length = data.length ∧ (takeRecords owner type name max data addrlist).1 = -1) ∧
      (0 ≤ max → 0 ≤ (takeRecords owner type name max data addrlist).1 ∧
        (takeRecords owner type name max data addrlist).1 + taken.length = max) := by
  by_cases hnonneg : 0 ≤ max
  · lift max to ℕ using hnonneg
    refine ⟨(data.take max).reverse, ?_, fun h => by omega, fun _ => ?_⟩
    · rw [takeRecords_limited, map_reverse]
    · rw [takeRecords_limited, length_reverse, length_take]
      omega
  by_cases hall : max = -1
  · subst hall
    refine ⟨data.reverse, ?_, fun _ => ⟨length_reverse, ?_⟩, fun h => by omega⟩
    · rw [takeRecords_unlimited, map_reverse]
    · rw [takeRecords_unlimited]
  · refine ⟨[], ?_, fun h => absurd h hall, fun h => absurd h hnonneg⟩
    cases data with
    | nil => rfl
    | cons record data =>
      rw [takeRecords, if_neg (by omega)]
      rfl

end

theorem owned_cons (i : ℕ) (entry : Entry) (addrlist : List Entry) : owned i (entry :: addrlist) =
      owned i addrlist + if entry.owner = i ∧ entry.addr.isSome then 1 else 0 := by
  rw [owned, countP_cons, owned]
  simp only [decide_eq_true_eq]

theorem owned_taken (i owner : ℕ) (family : Family) (name : CStr) (taken : List (List UInt8)) (addrlist : List Entry) :
    owned i ((taken.map fun record => (⟨owner, family, some record, name⟩ : Entry)) ++ addrlist) =
      owned i addrlist + if owner = i then taken.length else 0 := by
  induction taken with
  | nil => simp
  | cons record taken ih =>
    rw [map_cons, cons_append, owned_cons, ih]
    by_cases h : owner = i
    · simp [h, Nat.add_assoc]
    · simp [h]

theorem owned_dummy (i owner : ℕ) (b : Block) (addrlist : List Entry) :
    owned i (dummyEntries owner b ++ addrlist) = owned i addrlist := by
  rw [dummyEntries]
  split_ifs <;> simp [owned_cons]

theorem owned_ite_dummy (i owner : ℕ) (b : Block) (p : Prop) [Decidable p] (addrlist : List Entry) :
    owned i (if p then dummyEntries owner b ++ addrlist else addrlist) = owned i addrlist := by
  split_ifs
  · exact owned_dummy i owner b addrlist
  · rfl

theorem ampResolveCallback_spec (owner : ℕ) (type : RecordType)
    (data : Option (List (List UInt8))) (b : Block) (addrlist : List Entry) :
    let r := ampResolveCallback owner type data b addrlist
    (∀ i, i ≠ owner → owned i r.2 = owned i addrlist) ∧ (b.max = -1 → r.1.max = -1 ∧
        owned owner r.2 = owned owner addrlist + records owner (.answer owner type data)) ∧
      (0 ≤ b.max → 0 ≤ r.1.max ∧ (owned owner r.2 : ℤ) + r.1.max = owned owner addrlist + b.max) := by
  cases data with
  | none =>
    simp only [ampResolveCallback, owned_ite_dummy]
    simp only [underLock, records]
    exact ⟨fun _ _ => trivial, fun h => ⟨h, rfl⟩, fun h => ⟨h, trivial⟩⟩
  | some data =>
    obtain ⟨taken, hlist, hall, hlimit⟩ := takeRecords_spec owner type b.name b.max data addrlist
    simp only [ampResolveCallback, owned_ite_dummy]
    simp only [underLock, records, if_true]
    rw [hlist]
    simp only [owned_taken, if_true]
    refine ⟨fun i hi => by simp [Ne.symm hi], fun h => ?_, fun h => ?_⟩
    · obtain ⟨hlen, hmax⟩ := hall h
      exact ⟨hmax, by rw [hlen]⟩
    · obtain ⟨hnonneg, hsum⟩ := hlimit h
      refine ⟨hnonneg, ?_⟩
      push_cast
      omega

/-- `d` counts the records delivered for each query. -/
structure Tracks (queries : List Query) (w : Worker) (d : ℕ → ℕ) : Prop where
  unread : w.queries = queries.drop w.blocks.length
  fresh : ∀ i, w.blocks.length ≤ i → owned i w.addrlist = 0 ∧ d i = 0
  numeric : ∀ i, w.blocks[i]? = some none → owned i w.addrlist = 1 ∧ d i = 0
  limited : ∀ i b, w.blocks[i]? = some (some b) → ∃ q, queries[i]? = some q ∧
    (q.count = 0 → b.max = -1 ∧ owned i w.addrlist = d i) ∧
    (q.count ≠ 0 → 0 ≤ b.max ∧ (owned i w.addrlist : ℤ) + b.max = q.count.toNat)

theorem getElem?_concat_eq_some {α : Type} {l : List α} {a b : α} (h : (l ++ [a])[i]? = some b) :
    (i < l.length ∧ l[i]? = some b) ∨ (i = l.length ∧ a = b) := by
  rcases Nat.lt_trichotomy i l.length with hlt | heq | hgt
  · rw [getElem?_append_left hlt] at h
    exact Or.inl ⟨hlt, h⟩
  · subst heq
    simp at h
    exact Or.inr ⟨rfl, h⟩
  · rw [getElem?_eq_none (by simp; omega)] at h
    cases h

theorem Tracks.start (queries : List Query) : Tracks queries (start queries) fun _ => 0 where
  unread := rfl
  fresh := fun _ _ => ⟨rfl, rfl⟩
  numeric := by simp [AddressLimit.start]
  limited := by simp [AddressLimit.start]

variable {getNumericAddress}

variable {queries : List Query} {d : ℕ → ℕ}

section

variable {w : Worker} (h : Tracks queries w d)
include h

theorem Tracks.add {rest : List Query} {q : Query} (hq : w.queries = q :: rest) :
    Tracks queries (ampResolveAdd getNumericAddress { w with queries := rest } q) d := by
  have hget : queries[w.blocks.length]? = some q := by
    have := congrArg head? (h.unread.symm.trans hq)
    simpa using this
  have hrest : rest = queries.drop (w.blocks.length + 1) := by
    have := congrArg tail (hq.symm.trans h.unread)
    simpa using this
  obtain ⟨howned, hd⟩ := h.fresh w.blocks.length le_rfl
  rw [ampResolveAdd]
  cases getNumericAddress q.name with
  | some a =>
    obtain ⟨family, addr⟩ := a
    dsimp only
    refine ⟨by simpa using hrest, fun i hi => ?_, fun i hi => ?_, fun i b hb => ?_⟩
    · rw [length_append, length_singleton] at hi
      have hold := h.fresh i (by omega)
      rw [owned_cons, if_neg (by simp; omega)]
      exact hold
    · rcases getElem?_concat_eq_some hi with ⟨hlt, hold⟩ | ⟨rfl, -⟩
      · rw [owned_cons, if_neg (by simp; omega)]
        exact h.numeric i hold
      · rw [owned_cons, if_pos (by simp), howned]
        exact ⟨rfl, hd⟩
    · rcases getElem?_concat_eq_some hb with ⟨hlt, hold⟩ | ⟨-, heq⟩
      · rw [owned_cons, if_neg (by simp; omega)]
        exact h.limited i b hold
      · cases heq
  | none =>
    dsimp only
    refine ⟨by simpa using hrest, fun i hi => ?_, fun i hi => ?_, fun i b hb => ?_⟩
    · rw [length_append, length_singleton] at hi
      exact h.fresh i (by omega)
    · rcases getElem?_concat_eq_some hi with ⟨-, hold⟩ | ⟨-, heq⟩
      · exact h.numeric i hold
      · cases heq
    · rcases getElem?_concat_eq_some hb with ⟨-, hold⟩ | ⟨rfl, heq⟩
      · exact h.limited i b hold
      · cases some.inj heq
        refine ⟨q, hget, fun hzero => ?_, fun hne => ?_⟩
        · exact ⟨by simp [hzero], howned.trans hd.symm⟩
        · simp only [howned, if_pos (UInt8.pos_iff_ne_zero.mpr hne)]
          simp

theorem Tracks.answer {owner : ℕ} {type : RecordType} {data : Option (List (List UInt8))}
    {b : Block} (hb : w.blocks[owner]? = some (some b)) :
    Tracks queries
      { w with
        blocks := w.blocks.set owner (some (ampResolveCallback owner type data b w.addrlist).1)
        inFlight := w.inFlight.erase (owner, type)
        addrlist := (ampResolveCallback owner type data b w.addrlist).2 }
      fun i => d i + records i (.answer owner type data) := by
  obtain ⟨hother, hall, hlimit⟩ := ampResolveCallback_spec owner type data b w.addrlist
  have hlt : owner < w.blocks.length := (List.getElem?_eq_some_iff.mp hb).1
  have hrecords : ∀ i, i ≠ owner → records i (.answer owner type data) = 0 := by
    intro i hi
    cases data with
    | none => rfl
    | some data => exact if_neg hi.symm
  refine ⟨by simpa using h.unread, fun i hi => ?_, fun i hi => ?_, fun i c hc => ?_⟩
  · rw [length_set] at hi
    have hne : i ≠ owner := by omega
    simpa [hother i hne, hrecords i hne] using h.fresh i hi
  · by_cases hne : i = owner
    · subst hne
      simp [hlt] at hi
    · rw [getElem?_set_ne (Ne.symm hne)] at hi
      simpa [hother i hne, hrecords i hne] using h.numeric i hi
  · by_cases hne : i = owner
    · subst hne
      rw [getElem?_set_self hlt] at hc
      cases some.inj (some.inj hc)
      obtain ⟨q, hq, hzero, hpos⟩ := h.limited i b hb
      refine ⟨q, hq, fun hcount => ?_, fun hcount => ?_⟩
      · obtain ⟨hmax, howned⟩ := hzero hcount
        obtain ⟨hmax', howned'⟩ := hall hmax
        exact ⟨hmax', by rw [howned', howned]⟩
      · obtain ⟨hmax, hsum⟩ := hpos hcount
        obtain ⟨hmax', hsum'⟩ := hlimit hmax
        exact ⟨hmax', hsum'.trans hsum⟩
    · rw [getElem?_set_ne (Ne.symm hne)] at hc
      simpa [hother i hne, hrecords i hne] using h.limited i c hc

theorem Tracks.step {w' : Worker} {event : Event} (hstep : step getNumericAddress w event = some w') :
    Tracks queries w' fun i => d i + records i event := by
  cases event with
  | add =>
    cases hq : w.queries with
    | nil => simp [AddressLimit.step, hq] at hstep
    | cons q rest =>
      simp only [AddressLimit.step, hq, some.injEq] at hstep
      subst hstep
      exact h.add hq
  | answer owner type data =>
    rw [AddressLimit.step] at hstep
    split_ifs at hstep
    cases hb : w.blocks[owner]? with
    | none => simp [hb] at hstep
    | some block =>
      cases block with
      | none => simp [hb] at hstep
      | some b =>
        simp only [hb, some.injEq] at hstep
        subst hstep
        exact h.answer hb

theorem Tracks.run {w' : Worker} {events : List Event} (hrun : run getNumericAddress w events = some w') :
    Tracks queries w' fun i => d i + delivered i events := by
  induction events generalizing w d with
  | nil =>
    simp only [AddressLimit.run, foldlM_nil, Option.pure_def, some.injEq] at hrun
    subst hrun
    simpa [delivered] using h
  | cons event events ih =>
    rw [AddressLimit.run, foldlM_cons, bind_eq_bind, bind_eq_some_iff] at hrun
    obtain ⟨w₁, hstep, hrest⟩ := hrun
    have hnext := ih (h.step hstep) hrest
    simpa [delivered, Nat.add_assoc] using hnext

theorem Tracks.owned_le_iff (hn : 1 ≤ n) (hq : ∀ q, queries[i]? = some q → q.count = UInt8.ofNat n) :
    owned i w.addrlist ≤ n ↔ n % 256 ≠ 0 ∨ d i ≤ n := by
  cases hblock : w.blocks[i]? with
  | none =>
    obtain ⟨howned, hd⟩ := h.fresh i (by simpa using hblock)
    rw [howned, hd]
    exact iff_of_true (Nat.zero_le n) (Or.inr (Nat.zero_le n))
  | some block =>
    cases block with
    | none =>
      obtain ⟨howned, hd⟩ := h.numeric i hblock
      rw [howned, hd]
      exact iff_of_true hn (Or.inr (Nat.zero_le n))
    | some b =>
      obtain ⟨q, hget, hzero, hpos⟩ := h.limited i b hblock
      have hcount : q.count.toNat = n % 256 := by rw [hq q hget, UInt8.toNat_ofNat']
      by_cases hmod : n % 256 = 0
      · have hq0 : q.count = 0 := UInt8.toNat_inj.mp (hcount.trans hmod)
        rw [(hzero hq0).2]
        simp [hmod]
      · have hq0 : q.count ≠ 0 := by
          intro hq0
          rw [hq0] at hcount
          exact hmod hcount.symm
        obtain ⟨hmax, hsum⟩ := hpos hq0
        have := Nat.mod_le n 256
        exact iff_of_true (by omega) (Or.inl hmod)

end

def usableFamily (seenIpv4 seenIpv6 : Bool) (family : Family) : Option Family := do
  let family ←
    if seenIpv4 = false ∧ family ≠ .inet6 then
      if family = .inet then none else some .inet6
    else some family
  if seenIpv6 = false ∧ family ≠ .inet then
    if family = .inet6 then none else some .inet
  else some family

def usableDest (seenIpv4 seenIpv6 : Bool) (dest : ResolveDest) : Option ResolveDest :=
  (usableFamily seenIpv4 seenIpv6 dest.family).map fun family => { dest with family }

def workerQueries (turns : ℕ) (info buf : List UInt8) (seenIpv4 seenIpv6 : Bool) (resolve : List ResolveDest) : List Query :=
  (readQueries turns info buf (sendQueries (resolve.filterMap (usableDest seenIpv4 seenIpv6)))).1

/-- The addresses of one target among the destinations; its query follows those of `before`. -/
def handed (table : List NametableItem) (item : TestItem) (name : CStr) (family : Family)
    (count : UInt16) (seenIpv4 seenIpv6 : Bool) (before : List ResolveDest) (w : Worker) : ℕ :=
  match nameToAddress table name with
  | some _ => (addTarget table item name family count).dests.length - item.dests.length
  | none =>
    match usableDest seenIpv4 seenIpv6 ⟨name, family, count.toUInt8⟩ with
    | none => 0
    | some _ => owned (before.filterMap (usableDest seenIpv4 seenIpv6)).length w.addrlist

def returned (dest : ResolveDest) (seenIpv4 seenIpv6 : Bool) (before : List ResolveDest) (events : List Event) : ℕ :=
  match usableDest seenIpv4 seenIpv6 dest with
  | none => 0
  | some _ => delivered (before.filterMap (usableDest seenIpv4 seenIpv6)).length events

def limitOptions (n : ℕ) : Family → Bool → List CStr
  | .unspec, _ => [decimal n]
  | .inet, false => [decimal n, cstr "v4"]
  | .inet, true => [cstr "v4", decimal n]
  | .inet6, false => [decimal n, cstr "v6"]
  | .inet6, true => [cstr "v6", decimal n]

def targetText (name : CStr) (options : List CStr) : CStr :=
  name ++ (options.map (bang :: ·)).flatten

theorem parseOption_decimal (hpos : n ≠ 0) (limits : Family × UInt16) :
    parseOption limits (decimal n) = (limits.1, UInt16.ofNat (min n (2 ^ 63 - 1))) := by
  obtain ⟨b, t, hbt⟩ := exists_cons_of_ne_nil (decimal_ne_nil hpos)
  have hdigit : isdigit b = true := isdigit_decimal (hbt ▸ mem_cons_self ..)
  have hstar : b ≠ 42 := by
    rintro rfl
    exact absurd hdigit (by decide)
  have hv : b ≠ 118 := by
    rintro rfl
    exact absurd hdigit (by decide)
  have h1 : (decimal n).take 1 ≠ cstr "*" := by
    rw [hbt]
    exact fun h => hstar (cons.inj h).1
  have h2 : (decimal n).take 2 ≠ cstr "v4" := by
    rw [hbt]
    exact fun h => hv (cons.inj h).1
  have h3 : (decimal n).take 2 ≠ cstr "v6" := by
    rw [hbt]
    exact fun h => hv (cons.inj h).1
  have hofInt : UInt16.ofInt (atoi (decimal n)) = UInt16.ofNat (min n (2 ^ 63 - 1)) := by
    rw [atoi, strtol_decimal hpos, ← UInt16.toNat_inj, UInt16.ofInt, UInt16.toNat_ofNat', UInt16.toNat_ofNat', Int.bmod]
    split <;> omega
  rw [parseOption, if_neg h1, if_neg h2, if_neg h3, hofInt]

theorem tokens_options {options : List CStr} (hne : ∀ o ∈ option :: options, o ≠ []) (hbang : ∀ o ∈ option :: options, bang ∉ o) :
    tokens bang (targetText option options) = option :: options := by
  induction options generalizing option with
  | nil =>
    rw [targetText, map_nil, flatten_nil, append_nil]
    exact tokens_single (hbang option (by simp)) (hne option (by simp))
  | cons next options ih =>
    have htext : targetText option (next :: options) = option ++ bang :: targetText next options := by simp [targetText]
    rw [htext, tokens_append, tokens_single (hbang option (by simp)) (hne option (by simp)), singleton_append,
      ih (fun o ho => hne o (mem_cons_of_mem _ ho)) (fun o ho => hbang o (mem_cons_of_mem _ ho))]

theorem parseTarget_targetText {name : CStr} (hne : name ≠ []) (hbang : bang ∉ name)
    {options : List CStr} (hne' : ∀ o ∈ option :: options, o ≠ [])
    (hbang' : ∀ o ∈ option :: options, bang ∉ o) :
    parseTarget (targetText name (option :: options)) = some (name, (option :: options).foldl parseOption (.unspec, 0)) := by
  have htext : targetText name (option :: options) = name ++ bang :: targetText option options := by
    simp [targetText]
  rw [parseTarget, htext, strtok_append_cons hne hbang]
  simp only [tokens_options hne' hbang']

theorem parseTarget_limit {name : CStr} (hne : name ≠ []) (hbang : bang ∉ name) (hpos : n ≠ 0)
    (hmax : n ≤ 65535) (family : Family) (familyFirst : Bool) :
    parseTarget (targetText name (limitOptions n family familyFirst)) = some (name, family, UInt16.ofNat n) := by
  have hnum : decimal n ≠ [] ∧ bang ∉ decimal n :=
    ⟨decimal_ne_nil hpos, fun h => absurd (isdigit_decimal h) (by decide)⟩
  have hv : ∀ o ∈ [cstr "v4", cstr "v6"], o ≠ [] ∧ bang ∉ o := by decide
  have hall : ∀ o ∈ limitOptions n family familyFirst, o ≠ [] ∧ bang ∉ o := by
    cases family <;> cases familyFirst <;>
      simp [limitOptions, hnum, hv (cstr "v4") (by simp), hv (cstr "v6") (by simp)]
  have hoption : ∀ limits, parseOption limits (decimal n) = (limits.1, UInt16.ofNat n) := by
    intro limits
    rw [parseOption_decimal hpos, Nat.min_eq_left (by omega)]
  have hv4 : ∀ limits, parseOption limits (cstr "v4") = (.inet, limits.2) := fun _ => rfl
  have hv6 : ∀ limits, parseOption limits (cstr "v6") = (.inet6, limits.2) := fun _ => rfl
  cases family <;> cases familyFirst <;>
    rw [limitOptions, parseTarget_targetText hne hbang (fun o ho => (hall o ho).1) fun o ho => (hall o ho).2] <;>
    simp only [foldl_cons, foldl_nil, hoption, hv4, hv6]

theorem readQueries_count {dests : List ResolveDest} {info buf : List UInt8} (hinfo : info.length = 3) {q : Query}
    (h : (readQueries turns info buf (sendQueries dests)).1[i]? = some q) :
    ∃ d, dests[i]? = some d ∧ q.count = d.count := by
  induction dests generalizing turns info buf i with
  | nil =>
    cases turns with
    | zero => simp [readQueries] at h
    | succ turns =>
      have hmark := readQueries_marker turns hinfo buf [] ampResolveFlagDone rfl rfl
      rw [append_nil] at hmark
      simp [sendQueries, hmark] at h
  | cons d dests ih =>
    cases turns with
    | zero => simp [readQueries] at h
    | succ turns =>
      rw [sendQueries_cons] at h
      by_cases hzero : namelen d.name = 0
      · rw [ampResolveAddNew, append_assoc, readQueries_marker turns hinfo buf _ _ (by simp) (by simpa using hzero)] at h
        simp at h
      · rw [readQueries_record turns hinfo buf d _ hzero] at h
        cases htext : readString (overwrite (nameBytes d.name) buf) with
        | none => simp [htext] at h
        | some text =>
          rw [htext] at h
          cases i with
          | zero =>
            simp only [getElem?_cons_zero, some.injEq] at h
            exact ⟨d, by simp, by rw [← h]⟩
          | succ i =>
            simp only [getElem?_cons_succ] at h
            obtain ⟨d', hd', hcount⟩ := ih rfl h
            exact ⟨d', by simpa using hd', hcount⟩

theorem addAddresses_le (family : Family) (count : UInt16) (hpos : 0 < count) (item : TestItem) (chain : List AddrInfo) :
    (addAddresses family count item chain).dests.length ≤ max item.dests.length count.toNat := by
  induction chain generalizing item with
  | nil => exact Nat.le_max_left _ _
  | cons addr rest ih =>
    rw [addAddresses]
    split_ifs with hfull
    · exact Nat.le_max_left _ _
    · simp only [not_or, not_and, not_le] at hfull
      have hroom := hfull.2 hpos
      have hnext := ih { item with dests := item.dests ++ [addr] }
      simp only [TestItem.total, length_append, length_singleton] at hroom hnext
      omega
    · exact ih item

theorem workerQueries_count {info buf : List UInt8} (hinfo : info.length = 3)
    {seenIpv4 seenIpv6 : Bool} {before after : List ResolveDest} {dest usable : ResolveDest}
    (husable : usableDest seenIpv4 seenIpv6 dest = some usable) {q : Query}
    (h : (workerQueries turns info buf seenIpv4 seenIpv6 (before ++ dest :: after))[
      (before.filterMap (usableDest seenIpv4 seenIpv6)).length]? = some q) :
    q.count = dest.count := by
  obtain ⟨d, hd, hcount⟩ := readQueries_count hinfo h
  rw [filterMap_append, filterMap_cons_some husable] at hd
  simp only [getElem?_append_right le_rfl, Nat.sub_self, getElem?_cons_zero, some.injEq] at hd
  rw [usableDest, map_eq_some_iff] at husable
  obtain ⟨family, -, hfamily⟩ := husable
  rw [hcount, ← hd, ← hfamily]

/-- A target `name!n` gets at most `n` addresses exactly when its name is known,
`n` is not a multiple of 256, or no more than `n` records come back. -/
theorem address_limit_honoured_iff (table : List NametableItem) (item : TestItem) (name : CStr)
    (hne : name ≠ []) (hbang : bang ∉ name) (n : ℕ) (hpos : 1 ≤ n) (hmax : n ≤ 65535)
    (family : Family) (familyFirst : Bool)
    (getNumericAddress : CStr → Option (Family × List UInt8)) (seenIpv4 seenIpv6 : Bool)
    (turns : ℕ) (info buf : List UInt8) (hinfo : info.length = 3)
    (before after : List ResolveDest) (events : List Event) (w : Worker)
    (hrun : run getNumericAddress (start (workerQueries turns info buf seenIpv4 seenIpv6
      (before ++ ⟨name, family, UInt8.ofNat n⟩ :: after))) events = some w) :
    parseTarget (targetText name (limitOptions n family familyFirst)) = some (name, family, UInt16.ofNat n) ∧
      (handed table item name family (UInt16.ofNat n) seenIpv4 seenIpv6 before w ≤ n ↔
        (nameToAddress table name).isSome ∨ n % 256 ≠ 0 ∨
          returned ⟨name, family, UInt8.ofNat n⟩ seenIpv4 seenIpv6 before events ≤ n) := by
  refine ⟨parseTarget_limit hne hbang (by omega) hmax family familyFirst, ?_⟩
  have htoNat : (UInt16.ofNat n).toNat = n := by
    rw [UInt16.toNat_ofNat']
    omega
  rw [handed]
  cases hname : nameToAddress table name with
  | some addresses =>
    have hle := addAddresses_le family (UInt16.ofNat n)
      (UInt16.lt_iff_toNat_lt.mpr (by rw [htoNat]; exact hpos)) item addresses.addr
    rw [htoNat] at hle
    refine iff_of_true ?_ (Or.inl rfl)
    simp only [addTarget, hname]
    omega
  | none =>
    simp only [returned, UInt16.toUInt8_ofNat', isSome_none, Bool.false_eq_true, false_or]
    cases husable : usableDest seenIpv4 seenIpv6 ⟨name, family, UInt8.ofNat n⟩ with
    | none => exact iff_of_true (Nat.zero_le n) (Or.inr (Nat.zero_le n))
    | some usable =>
      have htracks := (Tracks.start _).run hrun
      simp only [Nat.zero_add] at htracks
      exact htracks.owned_le_iff hpos fun q hq => workerQueries_count hinfo husable hq

def pingTest : Test := ⟨1, cstr "icmp", 0, 1, false, none⟩

def pingItem : TestItem :=
  ⟨⟨0, 0⟩, ⟨60, 0⟩, 0, 86400000000, .daily, pingTest, [], [], ⟨none, none, none, 0, 0⟩, none⟩

def answeredOnce (n : ℕ) (data : List (List UInt8)) : Option Worker :=
  run (fun _ => none) (start (workerQueries 2 [0, 0, 0] (replicate 256 0) true true [⟨cstr "amp", .unspec, UInt8.ofNat n⟩]))
    [.add, .answer 0 .aaaa none, .answer 0 .a (some data)]

theorem limit_of_two_honoured : ∃ w, answeredOnce 2 [[10, 0, 0, 1], [10, 0, 0, 2], [10, 0, 0, 3]] = some w ∧
      handed [] pingItem (cstr "amp") .unspec 2 true true [] w ≤ 2 := by
  obtain ⟨w, hw⟩ : ∃ w, answeredOnce 2 [[10, 0, 0, 1], [10, 0, 0, 2], [10, 0, 0, 3]] = some w :=
    isSome_iff_exists.mp (by decide +kernel)
  have h := address_limit_honoured_iff [] pingItem (cstr "amp") (by decide) (by decide) 2
    (by decide) (by decide) .unspec false (fun _ => none) true true 2 [0, 0, 0]
    (replicate 256 0) (by decide) [] [] _ w hw
  exact ⟨w, hw, h.2.mpr (Or.inr (Or.inl (by decide)))⟩

theorem limit_of_256_ignored : (answeredOnce 256 (replicate 257 [10, 0, 0, 1])).map
      (handed [] pingItem (cstr "amp") .unspec 256 true true []) = some 257 := by
  decide +kernel

end Amplet.AddressLimit
