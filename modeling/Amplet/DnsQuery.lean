import Amplet.DnsNames

/-!
# Queries of the DNS test

Embedding of `encode` and `create_dns_query` in `src/tests/dns/dns.c`. The query is a
block of zeroed memory into which the fields are stored, in the order of the source. The
name buffer that `encode` allocates holds anything.
-/

namespace Amplet.DnsQuery
open List Option Bytes CompressedNames DnsNames FixedBuffer

def encodeLoop : ℕ → CStr → NameBuffer → ℕ → Option (NameBuffer × ℕ)
  | 0, _, _, _ => none
  | fuel + 1, query, name, index =>
    let part := query.takeWhile (· ≠ dot)
    (name.write index [UInt8.ofNat part.length]).bind fun name =>
      (name.write (index + 1) part).bind fun name =>
        if dot ∈ query then
          encodeLoop fuel (query.drop (part.length + 1)) name (index + part.length + 1)
        else some (name, index + part.length + 1)

/-- Each turn but the last takes a dot of the query. -/
def encode (name : NameBuffer) (query : CStr) : Option NameBuffer :=
  (encodeLoop (query.length + 1) query name 0).bind fun (name, index) => name.write index [0]

def strlen (cells : CStr) : Option ℕ :=
  if 0 ∈ cells then some (cells.takeWhile (· ≠ 0)).length else none

def htons (x : UInt16) : CStr := [(x >>> 8).toUInt8, x.toUInt8]

theorem htons_toNat (x : UInt16) : (x >>> 8).toUInt8.toNat * 256 + x.toUInt8.toNat = x.toNat := by
  have hx := x.toNat_lt
  simp [UInt16.toNat_toUInt8, UInt16.toNat_shiftRight, Nat.shiftRight_eq_div_pow]
  omega

structure Options where
  queryString : CStr
  queryType : UInt16
  queryClass : UInt16
  udpPayloadSize : UInt16
  recurse : ℤ
  dnssec : ℤ
  nsid : ℤ
deriving DecidableEq

def Options.additional (opt : Options) : Prop :=
  opt.dnssec ≠ 0 ∨ opt.nsid ≠ 0 ∨ opt.udpPayloadSize ≠ 0

instance (opt : Options) : Decidable opt.additional := inferInstanceAs (Decidable (_ ∨ _ ∨ _))

/-! The sizes of `struct dns_t`, `struct dns_query_t`, the pseudo record with its
name of one byte, and `struct dns_opt_rdata_t`. -/

def sizeofDns : ℕ := 12

def sizeofDnsQuery : ℕ := 4

def sizeofPseudoRr : ℕ := 11

def sizeofDnsOptRdata : ℕ := 4

def minUdpPayloadSize : UInt16 := 512

def checkOptions (opt : Options) : Option Options :=
  if opt.queryString.length < maxDnsNameLen ∧ opt.queryType > 0 ∧ opt.queryClass > 0 then
    if (opt.udpPayloadSize ≠ 0 ∨ opt.dnssec ≠ 0 ∨ opt.nsid ≠ 0) ∧ opt.udpPayloadSize < minUdpPayloadSize then
      some { opt with udpPayloadSize := minUdpPayloadSize }
    else some opt
  else none

def Options.additionalLen (opt : Options) : ℕ :=
  if opt.additional then sizeofPseudoRr + if opt.nsid ≠ 0 then sizeofDnsOptRdata else 0 else 0

/-- The bit `rd` is the lowest of the third byte for both byte orders. -/
def headerStores (ident : UInt16) (opt : Options) : List (ℕ × CStr) :=
  (if opt.recurse ≠ 0 then [(2, [1])] else []) ++ [(0, htons ident), (4, htons 1)] ++
    if opt.additional then [(10, htons 1)] else []

def questionStores (opt : Options) : List (ℕ × CStr) :=
  [(0, htons opt.queryType), (2, htons opt.queryClass)]

def additionalStores (opt : Options) : List (ℕ × CStr) :=
  if opt.additional then
    [(1, htons 41), (3, htons opt.udpPayloadSize)] ++ (if opt.dnssec ≠ 0 then [(7, htons 0x8000)] else []) ++
      if opt.nsid ≠ 0 then [(11, htons 3), (13, htons 0), (9, htons 4)] else []
  else []

def storesAt (pos : ℕ) (stores : List (ℕ × CStr)) : List (ℕ × CStr) :=
  stores.map fun store => (pos + store.1, store.2)

def queryStores (ident : UInt16) (opt : Options) (queryStringLen : ℕ) (name : CStr) : List (ℕ × CStr) :=
  headerStores ident opt ++ storesAt sizeofDns [(0, name)] ++ storesAt (sizeofDns + queryStringLen) (questionStores opt) ++
    storesAt (sizeofDns + queryStringLen + sizeofDnsQuery) (additionalStores opt)

def createDnsQuery (name : NameBuffer) (ident : UInt16) (opt : Options) : Option (CStr × ℕ) :=
  (encode name opt.queryString).bind fun queryString =>
    (strlen queryString.cells).bind fun n =>
      let queryStringLen := n + 1
      let totalLen := sizeofDns + queryStringLen + sizeofDnsQuery + opt.additionalLen
      ((Buffer.fill totalLen 0).writes (queryStores ident opt queryStringLen
        (queryString.cells.take queryStringLen))).map fun query => (query.cells, totalLen)

section Encode

variable {label : CStr} {labels : List CStr} {before behind : CStr}

theorem takeWhile_part (hlabel : dot ∉ label) (labels : List CStr) :
    (dotted dot (label :: labels)).takeWhile (· ≠ dot) = label := by
  rw [dotted]
  refine (Delimited.takeWhile_ne_append hlabel ?_).1
  cases labels with
  | nil => simp
  | cons next labels => simp

variable {name : NameBuffer} {pos : ℕ} {query : CStr}

theorem write_part (label : CStr) (hcells : name.cells = before ++ behind)
    (hfits : before.length + (label.length + 1) ≤ maxDnsNameLen) :
    ∃ name' name'' behind', name.write before.length [UInt8.ofNat label.length] = some name' ∧
      name'.write (before.length + 1) label = some name'' ∧
      name''.cells = before ++ UInt8.ofNat label.length :: label ++ behind' := by
  obtain ⟨name', hwrite, hcells'⟩ := Buffer.write_at [UInt8.ofNat label.length] hcells (by simp; omega)
  have hsplit : name'.cells = (before ++ [UInt8.ofNat label.length]) ++ behind.drop 1 := by
    rw [hcells', append_assoc, length_singleton]
  obtain ⟨name'', hwrite', hcells''⟩ := Buffer.write_at label hsplit (by simp; omega)
  refine ⟨name', name'', (behind.drop 1).drop label.length, hwrite, ?_, ?_⟩
  · rw [← hwrite', length_append, length_singleton]
  · rw [hcells'']
    simp

theorem encodeLoop_labels (hlabels : ∀ l ∈ label :: labels, dot ∉ l) {fuel : ℕ} (hcells : name.cells = before ++ behind)
    (hfits : before.length + (wire (label :: labels)).length ≤ maxDnsNameLen)
    (hfuel : labels.length < fuel) :
    ∃ name' behind', encodeLoop fuel (dotted dot (label :: labels)) name before.length =
        some (name', (before ++ wire (label :: labels)).length) ∧
      name'.cells = before ++ wire (label :: labels) ++ behind' := by
  induction labels generalizing label name before behind fuel with
  | nil =>
    obtain ⟨fuel, rfl⟩ := Nat.exists_eq_add_of_lt hfuel
    have hlabel : dot ∉ label := hlabels label (mem_cons_self ..)
    rw [wire_cons, show wire [] = [] from rfl, append_nil] at hfits ⊢
    obtain ⟨name', name'', behind', hlength, hbytes, hcells'⟩ := write_part _ hcells hfits
    refine ⟨name'', behind', ?_, hcells'⟩
    have hnone : dot ∉ dotted dot [label] := by simpa [dotted] using hlabel
    rw [encodeLoop]
    simp only [takeWhile_part hlabel, hlength, bind_some, hbytes, if_neg hnone]
    rw [length_append, length_cons, Nat.add_assoc]
  | cons next labels ih =>
    obtain ⟨fuel, rfl⟩ := Nat.exists_eq_add_of_lt (Nat.zero_lt_of_lt hfuel)
    have hlabel : dot ∉ label := hlabels label (mem_cons_self ..)
    rw [wire_cons] at hfits ⊢
    rw [length_cons, length_append] at hfits
    obtain ⟨name', name'', behind', hlength, hbytes, hcells'⟩ := write_part label hcells (by omega)
    have hfuel' : labels.length < fuel := by
      rw [length_cons] at hfuel
      omega
    obtain ⟨result, behind'', hloop, hresult⟩ := ih (fun l hl => hlabels l (mem_cons_of_mem _ hl)) hcells'
      (by rw [length_append, length_cons]; omega) hfuel'
    have hsome : dot ∈ dotted dot (label :: next :: labels) := by simp [dotted]
    have hdrop : (dotted dot (label :: next :: labels)).drop (label.length + 1) = dotted dot (next :: labels) := by
      rw [dotted, ← drop_drop, drop_left, flatMap_cons, cons_append]
      rfl
    have hindex : (before ++ UInt8.ofNat label.length :: label).length = before.length + label.length + 1 := by
      rw [length_append, length_cons, Nat.add_assoc]
    refine ⟨result, behind'', ?_, ?_⟩
    · rw [Nat.zero_add, encodeLoop]
      simp only [takeWhile_part hlabel, hlength, bind_some, hbytes, if_pos hsome, hdrop]
      rw [← hindex, hloop]
      simp
    · rw [hresult]
      simp

theorem length_wire_dotted (label : CStr) (labels : List CStr) :
    (wire (label :: labels)).length = (dotted dot (label :: labels)).length + 1 := by
  rw [length_wire dot, dotted, flatMap_cons, length_append, length_append, length_cons]
  omega

theorem encodeLoop_dotted (hlabels : ∀ l ∈ label :: labels, dot ∉ l)
    (hlength : (dotted dot (label :: labels)).length < maxDnsNameLen) (name : NameBuffer) :
    ∃ name' behind, encodeLoop ((dotted dot (label :: labels)).length + 1)
        (dotted dot (label :: labels)) name 0 = some (name', (wire (label :: labels)).length) ∧
      name'.cells = wire (label :: labels) ++ behind := by
  have hcells : name.cells = [] ++ name.cells := rfl
  have hfits : ([] : CStr).length + (wire (label :: labels)).length ≤ maxDnsNameLen := by
    rw [length_wire_dotted, length_nil]
    omega
  have hfuel : labels.length < (dotted dot (label :: labels)).length + 1 := by
    have hle := length_le_flatMap dot labels
    rw [dotted, length_append]
    omega
  obtain ⟨name', behind, hloop, hcells'⟩ := encodeLoop_labels hlabels hcells hfits hfuel
  exact ⟨name', behind, hloop, hcells'⟩

theorem encode_spec (hlabels : ∀ l ∈ labels, dot ∉ l) (hlength : (dotted dot labels).length ≤ 253) (name : NameBuffer) :
    ∃ name' behind, encode name (dotted dot labels) = some name' ∧ name'.cells = encoded labels ++ behind := by
  cases labels with
  | nil =>
    -- an empty part is written, whose length ends the name
    have hcells : name.cells = [] ++ name.cells := rfl
    have hroom : ([] : CStr).length + (([] : CStr).length + 1) ≤ maxDnsNameLen := by decide
    obtain ⟨name', name'', behind, hzero, hbytes, hcells'⟩ := write_part _ hcells hroom
    obtain ⟨result, hwrite, hresult⟩ := Buffer.write_at [0] hcells' (by decide)
    refine ⟨result, _, ?_, hresult⟩
    have hpart : (dotted dot ([] : List CStr)).takeWhile (· ≠ dot) = [] := rfl
    have hnone : dot ∉ dotted dot ([] : List CStr) := not_mem_nil
    rw [encode, encodeLoop]
    simp only [hpart, if_neg hnone]
    rw [show name.write 0 [UInt8.ofNat ([] : CStr).length] = some name' from hzero, bind_some,
      show name'.write (0 + 1) [] = some name'' from hbytes, bind_some, bind_some]
    exact hwrite
  | cons label labels =>
    have hroom : (dotted dot (label :: labels)).length + 2 ≤ maxDnsNameLen := by
      rw [maxDnsNameLen]
      omega
    obtain ⟨name', behind, hloop, hcells⟩ := encodeLoop_dotted hlabels (by omega) name
    obtain ⟨result, hwrite, hresult⟩ := Buffer.write_at [0] hcells (by rw [length_wire_dotted, length_singleton]; omega)
    refine ⟨result, behind.drop 1, ?_, ?_⟩
    · rw [encode, hloop, bind_some]
      exact hwrite
    · rw [hresult, encoded_eq, append_assoc]
      rfl

theorem encodeLoop_query (hlength : query.length < maxDnsNameLen) (name : NameBuffer) :
    ∃ name', encodeLoop (query.length + 1) query name 0 = some (name', query.length + 1) := by
  obtain ⟨label, labels, rfl, hlabels⟩ := exists_parts dot query
  obtain ⟨name', behind, hloop, -⟩ := encodeLoop_dotted hlabels hlength name
  rw [length_wire_dotted] at hloop
  exact ⟨name', hloop⟩

end Encode

/-! What the query is to be: a header, one question, and the record of RFC 6891 if
an option needs it. -/

def header (ident : UInt16) (opt : Options) : CStr :=
  htons ident ++ [if opt.recurse ≠ 0 then 1 else 0, 0] ++ htons 1 ++ htons 0 ++ htons 0 ++ htons (if opt.additional then 1 else 0)

def question (opt : Options) : CStr := htons opt.queryType ++ htons opt.queryClass

def optRecord (opt : Options) : CStr :=
  if opt.additional then
    0 :: (htons 41 ++ htons opt.udpPayloadSize ++ [0, 0] ++ htons (if opt.dnssec ≠ 0 then 0x8000 else 0) ++
        if opt.nsid ≠ 0 then htons 4 ++ (htons 3 ++ htons 0) else htons 0)
  else []

section Layout

variable (ident : UInt16) (opt : Options)

theorem length_header : (header ident opt).length = sizeofDns := rfl

theorem splices_header : splices (replicate sizeofDns 0) (headerStores ident opt) = header ident opt := by
  rw [headerStores, header]
  split_ifs <;> rfl

theorem splices_question : splices (replicate sizeofDnsQuery 0) (questionStores opt) = question opt := rfl

theorem splices_additional : splices (replicate opt.additionalLen 0) (additionalStores opt) = optRecord opt := by
  rw [Options.additionalLen, additionalStores, optRecord]
  split_ifs <;> rfl

theorem headerStores_fit : ∀ store ∈ headerStores ident opt, store.1 + store.2.length ≤ sizeofDns := by
  rw [headerStores]
  split_ifs <;> simp [htons, sizeofDns]

theorem additionalStores_fit : ∀ store ∈ additionalStores opt, store.1 + store.2.length ≤ opt.additionalLen := by
  rw [Options.additionalLen, additionalStores]
  split_ifs <;> simp [htons, sizeofPseudoRr, sizeofDnsOptRdata]

theorem storesAt_fit {stores : List (ℕ × CStr)} {n : ℕ} (h : ∀ store ∈ stores, store.1 + store.2.length ≤ n) :
    ∀ store ∈ storesAt pos stores, store.1 + store.2.length ≤ pos + n := by
  intro store hstore
  obtain ⟨original, horiginal, rfl⟩ := mem_map.mp hstore
  have hfit := h original horiginal
  dsimp only
  omega

theorem splices_storesAt {a : List UInt8} (ha : a.length = pos) (b : List UInt8) (stores : List (ℕ × CStr)) :
    splices (a ++ b) (storesAt pos stores) = a ++ splices b stores := by
  rw [storesAt, ← ha]
  exact splices_right a b stores

theorem queryStores_fit (name : CStr) : ∀ store ∈ queryStores ident opt name.length name,
    store.1 + store.2.length ≤ sizeofDns + name.length + sizeofDnsQuery + opt.additionalLen := by
  intro store hstore
  simp only [queryStores, mem_append] at hstore
  rcases hstore with ((hstore | hstore) | hstore) | hstore
  · have hfit := headerStores_fit ident opt store hstore
    omega
  · have hname : ∀ store ∈ [(0, name)], store.1 + store.2.length ≤ name.length := by simp
    have hfit := storesAt_fit hname store hstore
    omega
  · have hquestion : ∀ store ∈ questionStores opt, store.1 + store.2.length ≤ sizeofDnsQuery := by
      simp [questionStores, htons, sizeofDnsQuery]
    have hfit := storesAt_fit hquestion store hstore
    omega
  · exact storesAt_fit (additionalStores_fit opt) store hstore

theorem splices_queryStores (name : CStr) : splices (replicate (sizeofDns + name.length + sizeofDnsQuery + opt.additionalLen) 0)
        (queryStores ident opt name.length name) =
      header ident opt ++ name ++ question opt ++ optRecord opt := by
  have hheader := length_header ident opt
  have hname : (header ident opt ++ name).length = sizeofDns + name.length := by
    rw [length_append, hheader]
  have hquestion : (header ident opt ++ name ++ question opt).length = sizeofDns + name.length + sizeofDnsQuery := by
    rw [length_append, hname]
    rfl
  -- each group of stores changes its own part of the zeros
  have hfirst : ∀ rest, splices (replicate sizeofDns 0 ++ rest) (headerStores ident opt) =
      header ident opt ++ rest := fun rest => by
    rw [splices_left (by simpa using headerStores_fit ident opt), splices_header]
  have hsecond : ∀ rest, splices (replicate name.length 0 ++ rest) [(0, name)] = name ++ rest :=
    fun rest => by
      rw [splices_left (by simp)]
      exact congrArg (· ++ rest) (splice_all (by simp))
  have hthird : ∀ rest, splices (replicate sizeofDnsQuery 0 ++ rest) (questionStores opt) = question opt ++ rest := fun rest => by
    rw [splices_left (by simp [questionStores, htons, sizeofDnsQuery]), splices_question]
  rw [replicate_add, replicate_add, replicate_add, append_assoc,
    append_assoc, queryStores, splices_append, splices_append, splices_append, hfirst,
    splices_storesAt hheader, hsecond, ← append_assoc, splices_storesAt hname, hthird,
    ← append_assoc, splices_storesAt hquestion, splices_additional]

end Layout

theorem strlen_terminated {text : CStr} (h : 0 ∉ text) (behind : CStr) : strlen (text ++ 0 :: behind) = some text.length := by
  rw [strlen, if_pos (by simp), (Delimited.takeWhile_ne_cons h behind).1]

theorem le_storesAt {n : ℕ} (hpos : n ≤ pos) {stores : List (ℕ × CStr)} {store : ℕ × CStr}
    (h : store ∈ storesAt pos stores) : n ≤ store.1 := by
  obtain ⟨original, -, rfl⟩ := mem_map.mp h
  exact hpos.trans (Nat.le_add_right _ _)

theorem queryStores_id (ident : UInt16) (opt : Options) (n : ℕ) (queryString : CStr) : ∃ first others,
    queryStores ident opt n queryString = first ++ (0, htons ident) :: others ∧ ∀ store ∈ others, 2 ≤ store.1 := by
  refine ⟨if opt.recurse ≠ 0 then [(2, [1])] else [], (4, htons 1) ::
    ((if opt.additional then [(10, htons 1)] else []) ++ storesAt sizeofDns [(0, queryString)] ++
      storesAt (sizeofDns + n) (questionStores opt) ++
        storesAt (sizeofDns + n + sizeofDnsQuery) (additionalStores opt)), ?_, fun store hstore => ?_⟩
  · simp only [queryStores, headerStores, append_assoc, cons_append, nil_append]
  · simp only [mem_cons, mem_append] at hstore
    rcases hstore with rfl | ((hstore | hstore) | hstore) | hstore
    · decide
    · split_ifs at hstore
      · rw [mem_singleton.mp hstore]
        decide
      · cases hstore
    · exact le_storesAt (by decide) hstore
    · exact le_storesAt (by rw [sizeofDns]; omega) hstore
    · exact le_storesAt (by rw [sizeofDns]; omega) hstore

theorem createDnsQuery_id {ident : UInt16} {opt : Options} {len : ℕ}
    (h : createDnsQuery name ident opt = some (query, len)) : query.take 2 = htons ident := by
  obtain ⟨queryString, -, h⟩ := bind_eq_some_iff.mp h
  obtain ⟨n, -, h⟩ := bind_eq_some_iff.mp h
  obtain ⟨block, hwrites, h⟩ := map_eq_some_iff.mp h
  cases h
  obtain ⟨first, others, hstores, hothers⟩ :=
    queryStores_id ident opt (n + 1) (queryString.cells.take (n + 1))
  rw [Buffer.cells_of_writes hwrites, hstores, splices_append]
  refine (take_splices ?_ hothers).trans ?_
  · change 2 ≤ (splice _ 0 (htons ident)).length
    rw [splice, length_append, length_append]
    exact le_add_right (Nat.le_add_left _ _)
  · change (splice _ 0 (htons ident)).take 2 = htons ident
    rw [splice, take_zero, nil_append]
    rfl

structure PlainLabel (label : CStr) : Prop where
  pos : 0 < label.length
  short : label.length ≤ 63
  noDot : dot ∉ label
  noNul : 0 ∉ label

section Results

variable {labels : List CStr}

theorem createDnsQuery_eq (hlabels : ∀ l ∈ labels, PlainLabel l)
    (hlength : (dotted dot labels).length ≤ 253) (name : NameBuffer) (ident : UInt16)
    {opt : Options} (hquery : opt.queryString = dotted dot labels) :
    createDnsQuery name ident opt = some (header ident opt ++ encoded labels ++ question opt ++ optRecord opt,
        (header ident opt ++ encoded labels ++ question opt ++ optRecord opt).length) := by
  obtain ⟨queryString, behind, hencode, hcells⟩ :=
    encode_spec (fun l hl => (hlabels l hl).noDot) hlength name
  have hzero : 0 ∉ wire labels := zero_notMem_wire fun l hl =>
    ⟨(hlabels l hl).pos, (hlabels l hl).short, (hlabels l hl).noNul⟩
  have hstrlen : strlen queryString.cells = some (wire labels).length := by
    rw [hcells, encoded_eq, append_assoc]
    exact strlen_terminated hzero behind
  have hsize : (wire labels).length + 1 = (encoded labels).length := by
    rw [encoded_eq, length_append, length_singleton]
  have htake : queryString.cells.take (encoded labels).length = encoded labels := by
    rw [hcells, take_left]
  have htotal : (header ident opt ++ encoded labels ++ question opt ++ optRecord opt).length =
      sizeofDns + (encoded labels).length + sizeofDnsQuery + opt.additionalLen := by
    rw [← splices_queryStores, length_splices (by simpa using queryStores_fit ident opt _), length_replicate]
  obtain ⟨query, hwrites, hresult⟩ := (Buffer.fill (sizeofDns + (encoded labels).length +
    sizeofDnsQuery + opt.additionalLen) 0).writes_eq (queryStores_fit ident opt (encoded labels))
  have hbytes : query.cells = header ident opt ++ encoded labels ++ question opt ++ optRecord opt :=
    hresult.trans (splices_queryStores ident opt (encoded labels))
  rw [createDnsQuery, hquery, hencode, bind_some, hstrlen, bind_some]
  dsimp only
  rw [hsize, htake, hwrites, map_some, hbytes, htotal]

theorem createDnsQuery_roundtrip (hlabels : ∀ l ∈ labels, PlainLabel l)
    (hlength : ([dot].intercalate labels).length ≤ 253) (name : NameBuffer) (ident : UInt16)
    {opt : Options} (hquery : opt.queryString = [dot].intercalate labels) :
    ∃ query next, createDnsQuery name ident opt = some (query, query.length) ∧ Decodes query sizeofDns labels next ∧
      query.drop next = htons opt.queryType ++ (htons opt.queryClass ++ optRecord opt) := by
  have hname := nameAt_encoded (fun l hl => ⟨(hlabels l hl).pos, (hlabels l hl).short⟩)
    (header ident opt) (question opt ++ optRecord opt)
  rw [length_header] at hname
  refine ⟨header ident opt ++ (encoded labels ++ (question opt ++ optRecord opt)),
    sizeofDns + (encoded labels).length, ?_, ?_, ?_⟩
  · rw [← dotted_eq_intercalate] at hlength hquery
    rw [createDnsQuery_eq hlabels hlength name ident hquery]
    simp only [append_assoc]
  · refine decodes_of_nulsLast hname (by rw [maxDnsNameLen]; omega) fun label hl => ?_
    exact nulsLast_of_notMem (hlabels label hl).noNul
  · rw [← length_header ident opt, ← length_append, ← append_assoc, drop_left, question, append_assoc]

end Results

def exampleOptions : Options :=
  ⟨cstr "www.example.org", 28, 1, 4096, 1, 1, 1⟩

theorem example_query_roundtrip : ∃ query next,
    createDnsQuery (Buffer.fill maxDnsNameLen 1) 0x1234 exampleOptions = some (query, query.length) ∧
      Decodes query sizeofDns [cstr "www", cstr "example", cstr "org"] next ∧
      query.drop next = htons 28 ++ (htons 1 ++ optRecord exampleOptions) := by
  have hall : ∀ l ∈ [cstr "www", cstr "example", cstr "org"], 0 < l.length ∧ l.length ≤ 63 ∧ dot ∉ l ∧ 0 ∉ l := by decide
  have hlabels : ∀ l ∈ [cstr "www", cstr "example", cstr "org"], PlainLabel l := fun l hl =>
    ⟨(hall l hl).1, (hall l hl).2.1, (hall l hl).2.2.1, (hall l hl).2.2.2⟩
  have hquery : exampleOptions.queryString = [dot].intercalate [cstr "www", cstr "example", cstr "org"] := by
    decide
  exact createDnsQuery_roundtrip hlabels (by decide) (Buffer.fill maxDnsNameLen 1) 0x1234 hquery

theorem checkOptions_eq_some {opt opt' : Options} (h : checkOptions opt = some opt') :
    opt'.queryString = opt.queryString ∧ opt.queryString.length < maxDnsNameLen := by
  rw [checkOptions] at h
  split_ifs at h with hasserts hsize
  all_goals
    cases h
    exact ⟨rfl, hasserts.1⟩

def EncodeFits (query : CStr) : Prop := ∀ name : NameBuffer, ∃ name', encode name query = some name'

/-- The terminating zero is the last byte that is written. -/
theorem encode_fits_iff {opt opt' : Options} (h : checkOptions opt = some opt') :
    EncodeFits opt'.queryString ↔ opt.queryString.length + 2 ≤ maxDnsNameLen := by
  obtain ⟨hquery, hlength⟩ := checkOptions_eq_some h
  rw [hquery, EncodeFits]
  have hwrite : ∀ name : NameBuffer, ∃ name' : NameBuffer, encode name opt.queryString =
      name'.write (opt.queryString.length + 1) [0] := fun name => by
    obtain ⟨name', hloop⟩ := encodeLoop_query hlength name
    exact ⟨name', by rw [encode, hloop, bind_some]⟩
  constructor
  · intro hfits
    obtain ⟨name', hname'⟩ := hwrite (Buffer.fill maxDnsNameLen 0)
    obtain ⟨result, hresult⟩ := hfits (Buffer.fill maxDnsNameLen 0)
    by_contra hlong
    rw [hname', Buffer.write_eq_none (by rw [length_singleton]; omega)] at hresult
    cases hresult
  · intro hroom name
    obtain ⟨name', hname'⟩ := hwrite name
    rw [hname', Buffer.write, dif_pos (by rw [length_singleton]; omega)]
    exact ⟨_, rfl⟩

theorem example_query_fits : EncodeFits exampleOptions.queryString := by
  have hchecked : checkOptions exampleOptions = some exampleOptions := by decide
  exact (encode_fits_iff hchecked).mpr (by decide)

def longOptions : Options := { exampleOptions with queryString := replicate 254 97 }

theorem long_query_overflows : checkOptions longOptions = some longOptions ∧
    (encodeLoop 255 longOptions.queryString (Buffer.fill maxDnsNameLen 0) 0).map Prod.snd =
      some maxDnsNameLen ∧ ¬ EncodeFits longOptions.queryString := by
  refine ⟨by decide +kernel, by decide +kernel, fun h => ?_⟩
  obtain ⟨name', hname'⟩ := h (Buffer.fill maxDnsNameLen 0)
  have hnone : (encode (Buffer.fill maxDnsNameLen 0) longOptions.queryString).isSome = false := by
    decide +kernel
  rw [hname'] at hnone
  cases hnone

end Amplet.DnsQuery
