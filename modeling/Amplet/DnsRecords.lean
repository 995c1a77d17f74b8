import Amplet.DnsOptions

/-!
# The records of a response

A response as RFC 1035 and RFC 6891 define it, and how far `process_packet` in
`src/tests/dns/dns.c` gets in it. The counts of the three sections are added before
their bytes are put in order, so a carry can be lost.
-/

namespace Amplet.DnsRecords
open List Bytes CompressedNames DnsNames DnsQuery DnsResponse DnsOptions Failing ProbeTest ScheduleTime
open SocketAddress

inductive Data
  | opt (options : List OptOption)
  | other (type : UInt16) (h : type ≠ 41) (bytes : CStr)

def Data.type : Data → UInt16
  | .opt _ => 41
  | .other type _ _ => type

def Data.bytes : Data → CStr
  | .opt options => rdata options
  | .other _ _ bytes => bytes

def Data.nsids : Data → List CStr
  | .opt options => options.flatMap fun o => if o.code = 3 then [o.payload] else []
  | .other _ _ _ => []

structure Record where
  labels : List CStr
  nameShort : ([dot].intercalate labels).length ≤ 253
  cls : UInt16
  ttl : CStr
  ttlSize : ttl.length = 4
  data : Data
  dataShort : data.bytes.length < 65536

def Record.body (r : Record) : CStr :=
  htons r.data.type ++ (htons r.cls ++ (r.ttl ++ (htons (UInt16.ofNat r.data.bytes.length) ++ r.data.bytes)))

inductive RecordsAt (msg : CStr) : ℕ → List Record → ℕ → Prop
  | nil {pos : ℕ} : RecordsAt msg pos [] pos
  | cons {pos behind next : ℕ} {r : Record} {rs : List Record}
      (hname : NameAt msg pos r.labels behind) (hbody : r.body <+: msg.drop behind)
      (hrest : RecordsAt msg (behind + r.body.length) rs next) : RecordsAt msg pos (r :: rs) next

structure Response where
  msg : CStr
  short : msg.length < 65536
  id : UInt16
  flags : UInt8 × UInt8
  isResponse : flags.1 &&& 0x80 ≠ 0
  answer : List Record
  authority : List Record
  additional : List Record
  header : htons id ++ [flags.1, flags.2] ++ htons 1 ++ htons (UInt16.ofNat answer.length) ++
    htons (UInt16.ofNat authority.length) ++ htons (UInt16.ofNat additional.length) <+: msg
  qname : List CStr
  qend : ℕ
  question : NameAt msg sizeofDns qname qend
  recordsAt : RecordsAt msg (qend + sizeofDnsQuery) (answer ++ authority ++ additional) msg.length

def Response.records (r : Response) : List Record := r.answer ++ r.authority ++ r.additional

def Response.nsid (r : Response) : Option CStr := (r.records.flatMap fun rr => rr.data.nsids).getLast?

def Record.record (info : Info) (r : Record) : Info :=
  match r.data with
  | .opt options => options.foldl OptOption.record info
  | .other type _ _ => if type = 46 then { info with rrsig := true } else info

section Shape

variable {msg : CStr} {pos next : ℕ} {rs : List Record}

theorem length_body (r : Record) : r.body.length = r.data.bytes.length + 10 := by
  simp only [Record.body, length_append, r.ttlSize, htons, length_cons, length_nil]
  omega

theorem RecordsAt.length_le (h : RecordsAt msg pos rs next) : pos + 11 * rs.length ≤ next := by
  induction h with
  | nil => exact le_rfl
  | @cons pos behind next r rs hname hbody _ ih =>
    have hlt := hname.lt
    rw [length_body] at ih
    rw [length_cons]
    omega

theorem RecordsAt.take (h : RecordsAt msg pos rs next) (n : ℕ) :
    ∃ mid, RecordsAt msg pos (rs.take n) mid ∧ RecordsAt msg mid (rs.drop n) next := by
  induction h generalizing n with
  | nil => exact ⟨_, by rw [take_nil]; exact .nil, by rw [drop_nil]; exact .nil⟩
  | @cons pos behind next r rs hname hbody hrest ih =>
    cases n with
    | zero => exact ⟨pos, .nil, .cons hname hbody hrest⟩
    | succ n =>
      obtain ⟨mid, htake, hdrop⟩ := ih n
      exact ⟨mid, .cons hname hbody htake, hdrop⟩

end Shape

section Walk

variable {packet : CStr} {pos behind next : ℕ}

theorem skipName_name {labels : List CStr} (h : NameAt packet pos labels next) :
    ∃ enough, ∀ fuel, enough ≤ fuel → skipName fuel none packet pos = .ok next ∧ (([dot].intercalate labels).length ≤ 253 →
        ∀ b, skipName fuel (some b) packet pos = .ok next) := by
  obtain ⟨enough, hdecode⟩ := decode_name h
  refine ⟨enough, fun fuel hfuel => ?_⟩
  obtain ⟨hnone, hsome⟩ := hdecode fuel hfuel
  refine ⟨by rw [skipName, hnone], fun hshort b => ?_⟩
  rw [dotted_eq_intercalate] at hsome
  obtain ⟨b', -, hb', -⟩ := hsome (lt_of_le_of_lt hshort (by decide)) b
  rw [skipName, hb']

theorem processRecordData_body {r : Record} {before after : CStr} (hpacket : packet = before ++ (r.body ++ after)) (info : Info) :
    processRecordData packet before.length r.data.type.toNat r.data.bytes.length info = .ok (r.record info) := by
  obtain ⟨labels, hname, cls, ttl, httl, data, hshort⟩ := r
  cases data with
  | opt options =>
    rw [processRecordData, show (Data.opt options).type.toNat = 41 from rfl, if_pos rfl, Record.record]
    cases options with
    | nil =>
      have hempty : ¬ sizeofDnsOptRdata ≤ (Data.opt []).bytes.length := by decide
      exact if_neg hempty
    | cons o options =>
      have hroom : sizeofDnsOptRdata ≤ (Data.opt (o :: options)).bytes.length := by
        rw [Data.bytes, rdata_cons, length_append, length_bytes, sizeofDnsOptRdata]
        omega
      have hfixed : (before ++ (htons (Data.opt (o :: options)).type ++ (htons cls ++ (ttl ++
          htons (UInt16.ofNat (Data.opt (o :: options)).bytes.length))))).length = before.length + sizeofDnsOptRr := by
        simp only [length_append, httl]
        rfl
      have hsplit : packet = before ++ (htons (Data.opt (o :: options)).type ++ (htons cls ++ (ttl ++
          htons (UInt16.ofNat (Data.opt (o :: options)).bytes.length)))) ++ (rdata (o :: options) ++ after) := by
        rw [hpacket, Record.body]
        simp only [append_assoc]
        rfl
      rw [if_pos hroom, ← hfixed, hsplit]
      exact processOptRr_rdata (by simp) hshort _ after info
  | other type htype bytes =>
    have hopt : (Data.other type htype bytes).type.toNat ≠ 41 := fun h =>
      htype (UInt16.toNat_inj (b := 41) |>.mp h)
    have hsig : (Data.other type htype bytes).type.toNat = 46 ↔ type = 46 := UInt16.toNat_inj (b := 46)
    rw [processRecordData, if_neg hopt, Record.record]
    dsimp only
    by_cases h46 : type = 46
    · rw [if_pos (hsig.mpr h46), if_pos h46]
    · rw [if_neg (mt hsig.mp h46), if_neg h46]

theorem processRecord_at {r : Record} (hname : NameAt packet pos r.labels behind)
    (hbody : r.body <+: packet.drop behind) : ∃ enough, ∀ fuel, enough ≤ fuel → ∀ name info,
      processRecord fuel name packet pos info = .ok (behind + r.body.length, r.record info) := by
  obtain ⟨enough, hskip⟩ := skipName_name hname
  obtain ⟨after, hafter⟩ := hbody
  have hpacket : packet = packet.take behind ++ (r.body ++ after) := by
    rw [hafter, take_append_drop]
  have hbehind : (packet.take behind).length = behind := by
    have hlength := congrArg length hafter
    rw [length_append, length_body, length_drop] at hlength
    rw [length_take]
    omega
  refine ⟨enough, fun fuel hfuel name info => ?_⟩
  have htype : field packet behind = .ok r.data.type.toNat := by
    refine field_htons (packet.take behind) (htons r.cls ++ (r.ttl ++
      (htons (UInt16.ofNat r.data.bytes.length) ++ r.data.bytes)) ++ after) ?_ hbehind.symm
    refine hpacket.trans ?_
    rw [Record.body]
    simp only [append_assoc]
  have hrdlen : field packet (behind + 8) = .ok r.data.bytes.length := by
    have hread : field packet (behind + 8) = .ok (UInt16.ofNat r.data.bytes.length).toNat := by
      refine field_htons (packet.take behind ++ (htons r.data.type ++ (htons r.cls ++ r.ttl))) (r.data.bytes ++ after) ?_ ?_
      · refine hpacket.trans ?_
        rw [Record.body]
        simp only [append_assoc]
      · simp only [length_append, hbehind, r.ttlSize]
        rfl
    rw [hread, UInt16.toNat_ofNat_of_lt' r.dataShort]
  have hdata := processRecordData_body hpacket info
  rw [hbehind] at hdata
  rw [processRecord, (hskip fuel hfuel).2 r.nameShort, ok_bind, htype, ok_bind, hrdlen, ok_bind, hdata,
    ok_bind, length_body, sizeofDnsOptRr, Nat.add_right_comm, Nat.add_assoc]

theorem processRecords_at {rs : List Record} (h : RecordsAt packet pos rs next) :
    ∃ enough, ∀ fuel, enough ≤ fuel → ∀ names i info, processRecords fuel names packet rs.length i pos info =
        .ok (next, rs.foldl Record.record info) := by
  induction h with
  | nil => exact ⟨0, fun _ _ _ _ _ => rfl⟩
  | cons hname hbody _ ih =>
    obtain ⟨enough₁, hrecord⟩ := processRecord_at hname hbody
    obtain ⟨enough₂, hrest⟩ := ih
    refine ⟨max enough₁ enough₂, fun fuel hfuel names i info => ?_⟩
    rw [length_cons, processRecords, hrecord fuel (le_of_max_le_left hfuel), ok_bind]
    exact hrest fuel (le_of_max_le_right hfuel) names (i + 1) _

theorem RecordsAt.append {msg : CStr} {rs : List Record} (h : RecordsAt msg pos rs next)
    (after : CStr) : RecordsAt (msg ++ after) pos rs next := by
  induction h with
  | nil => exact .nil
  | cons hname hbody _ ih =>
    refine .cons (hname.append after) ?_ ih
    have hroom := hbody.length_le
    rw [length_body, length_drop] at hroom
    rw [drop_append_of_le_length (by omega)]
    exact hbody.trans (prefix_append _ _)

end Walk

def Response.counts (r : Response) : Header :=
  ⟨r.id.toNat, r.flags, 1, r.answer.length, r.authority.length, r.additional.length⟩

theorem Response.few_records (r : Response) : 11 * (r.counts.anCount + r.counts.nsCount + r.counts.arCount) < 65536 := by
  change 11 * (r.answer.length + r.authority.length + r.additional.length) < 65536
  have hle := r.recordsAt.length_le
  have hshort := r.short
  rw [length_append, length_append] at hle
  omega

theorem readHeader_response (r : Response) (behind : CStr) : readHeader (r.msg ++ behind) = .ok r.counts := by
  obtain ⟨rest, hrest⟩ := r.header
  have hfew : 11 * (r.answer.length + r.authority.length + r.additional.length) < 65536 :=
    r.few_records
  have hpacket : r.msg ++ behind = htons r.id ++ ([r.flags.1, r.flags.2] ++ (htons 1 ++
      (htons (UInt16.ofNat r.answer.length) ++ (htons (UInt16.ofNat r.authority.length) ++
        (htons (UInt16.ofNat r.additional.length) ++ (rest ++ behind)))))) := by
    rw [← hrest]
    simp only [append_assoc]
  have hcount : ∀ {n : ℕ}, 11 * n < 65536 → (UInt16.ofNat n).toNat = n := fun hn =>
    UInt16.toNat_ofNat_of_lt' (show _ < 65536 by omega)
  have hid : field (r.msg ++ behind) 0 = .ok r.id.toNat := field_htons [] _ hpacket rfl
  have hhigh : byteAt (r.msg ++ behind) 2 = .ok r.flags.1 := byteAt_cons (htons r.id) _ hpacket rfl
  have hlow : byteAt (r.msg ++ behind) 3 = .ok r.flags.2 :=
    byteAt_cons (htons r.id ++ [r.flags.1]) _ (by rw [hpacket]; rfl) rfl
  have hqd : field (r.msg ++ behind) 4 = .ok (1 : UInt16).toNat :=
    field_htons (htons r.id ++ [r.flags.1, r.flags.2]) _ (by rw [hpacket]; rfl) rfl
  have han : field (r.msg ++ behind) 6 = .ok (UInt16.ofNat r.answer.length).toNat :=
    field_htons (htons r.id ++ [r.flags.1, r.flags.2] ++ htons 1) _ (by rw [hpacket]; rfl) rfl
  have hns : field (r.msg ++ behind) 8 = .ok (UInt16.ofNat r.authority.length).toNat :=
    field_htons (htons r.id ++ [r.flags.1, r.flags.2] ++ htons 1 ++
      htons (UInt16.ofNat r.answer.length)) _ (by rw [hpacket]; rfl) rfl
  have har : field (r.msg ++ behind) 10 = .ok (UInt16.ofNat r.additional.length).toNat :=
    field_htons (htons r.id ++ [r.flags.1, r.flags.2] ++ htons 1 ++
      htons (UInt16.ofNat r.answer.length) ++ htons (UInt16.ofNat r.authority.length)) _
      (by rw [hpacket]; rfl) rfl
  rw [hcount (by omega)] at han hns har
  simp only [readHeader, hid, hhigh, hlow, hqd, han, hns, har, ok_bind]
  rfl

theorem responseCode_response (e : Endian) (r : Response) :
    r.counts.responseCode e = .responseOk ∨ r.counts.responseCode e = .notFound := by
  have hqr : r.counts.qr = true := decide_eq_true r.isResponse
  rw [Header.responseCode, if_neg (by rw [hqr]; decide), if_neg (by simp [Response.counts])]
  split_ifs
  · exact .inr rfl
  · exact .inr rfl
  · exact .inl rfl

theorem recordResponse_response (e : Endian) (r : Response) (behind : CStr) : ∃ mid enough,
    RecordsAt r.msg (r.qend + sizeofDnsQuery) (r.records.take (r.counts.responseCount e)) mid ∧
      RecordsAt r.msg mid (r.records.drop (r.counts.responseCount e)) r.msg.length ∧
      (r.counts.responseCount e ≤ r.records.length → ∀ fuel, enough ≤ fuel → ∀ names now info,
        recordResponse e fuel names (r.msg ++ behind) now info =
          .ok { (r.records.take (r.counts.responseCount e)).foldl Record.record (info.withHeader e r.counts) with
            bytes := mid
            delay := recordedDelay now ((r.records.take (r.counts.responseCount e)).foldl Record.record
              (info.withHeader e r.counts)).timeSent }) := by
  obtain ⟨mid, htake, hdrop⟩ := r.recordsAt.take (r.counts.responseCount e)
  obtain ⟨enough₁, hname⟩ := skipName_name (r.question.append behind)
  obtain ⟨enough₂, hrecords⟩ := processRecords_at (htake.append behind)
  refine ⟨mid, max enough₁ enough₂, htake, hdrop, fun hle fuel hfuel names now info => ?_⟩
  have hlength : (r.records.take (r.counts.responseCount e)).length = r.counts.responseCount e :=
    length_take_of_le hle
  have hskip : skipQuestions fuel (r.msg ++ behind) r.counts.qdCount sizeofDns = .ok (r.qend + sizeofDnsQuery) := by
    change skipQuestions fuel (r.msg ++ behind) (0 + 1) sizeofDns = _
    rw [skipQuestions, (hname fuel (le_of_max_le_left hfuel)).1, ok_bind, skipQuestions]
  have hwalk := hrecords fuel (le_of_max_le_right hfuel) names 0 (info.withHeader e r.counts)
  change processRecords fuel names (r.msg ++ behind) (r.records.take (r.counts.responseCount e)).length 0 _ _ = _ at hwalk
  rw [hlength] at hwalk
  rw [recordResponse, readHeader_response, ok_bind]
  dsimp only
  rw [if_pos (responseCode_response e r), hskip, ok_bind, hwalk, ok_bind]
  rfl

section Counts

variable {h : Header}

theorem toNat_swapBytes16 (x : BitVec 16) : (swapBytes16 x).toNat = x.toNat % 256 * 256 + x.toNat / 256 := by
  have hx := x.isLt
  rw [swapBytes16, BitVec.toNat_cast, BitVec.toNat_append]
  simp only [BitVec.extractLsb'_toNat, Nat.shiftRight_eq_div_pow]
  rw [← Nat.shiftLeft_add_eq_or_of_lt (Nat.mod_lt _ (by decide)), Nat.shiftLeft_eq]
  omega

theorem responseCount_big (hfew : h.anCount + h.nsCount + h.arCount < 65536) :
    h.responseCount .big = h.anCount + h.nsCount + h.arCount := by
  change (BitVec.ofNat 16 h.anCount + BitVec.ofNat 16 h.nsCount + BitVec.ofNat 16 h.arCount).toNat = _
  rw [← BitVec.ofNat_add, ← BitVec.ofNat_add, BitVec.toNat_ofNat, Nat.mod_eq_of_lt hfew]

theorem responseCount_little (hfew : 11 * (h.anCount + h.nsCount + h.arCount) < 65536) :
    h.responseCount .little = (h.anCount / 256 + h.nsCount / 256 + h.arCount / 256) * 256 +
      (h.anCount % 256 + h.nsCount % 256 + h.arCount % 256) % 256 := by
  have hloaded : ∀ {x : ℕ}, x < 65536 → (swapBytes16 (BitVec.ofNat 16 x)).toNat = x % 256 * 256 + x / 256 := fun hx => by
    rw [toNat_swapBytes16, BitVec.toNat_ofNat, Nat.mod_eq_of_lt hx]
  change (swapBytes16 (swapBytes16 (BitVec.ofNat 16 h.anCount) +
    swapBytes16 (BitVec.ofNat 16 h.nsCount) + swapBytes16 (BitVec.ofNat 16 h.arCount))).toNat = _
  rw [toNat_swapBytes16, BitVec.toNat_add, BitVec.toNat_add, hloaded (by omega), hloaded (by omega),
    hloaded (by omega), Nat.mod_add_mod]
  have hsum : (h.anCount % 256 * 256 + h.anCount / 256 + (h.nsCount % 256 * 256 + h.nsCount / 256) +
      (h.arCount % 256 * 256 + h.arCount / 256)) % 2 ^ 16 = (h.anCount % 256 + h.nsCount % 256 + h.arCount % 256) % 256 * 256 +
          (h.anCount / 256 + h.nsCount / 256 + h.arCount / 256) := by
    omega
  rw [hsum]
  omega

def Header.NoCarry (h : Header) : Prop :=
  h.anCount % 256 + h.nsCount % 256 + h.arCount % 256 < 256

section

variable (e : Endian) (hfew : 11 * (h.anCount + h.nsCount + h.arCount) < 65536)
include hfew

theorem responseCount_le : h.responseCount e ≤ h.anCount + h.nsCount + h.arCount := by
  cases e with
  | big => exact (responseCount_big (by omega)).le
  | little =>
    rw [responseCount_little hfew]
    omega

theorem responseCount_eq_iff : h.responseCount e = h.anCount + h.nsCount + h.arCount ↔ e = .big ∨ Header.NoCarry h := by
  cases e with
  | big => exact iff_of_true (responseCount_big (by omega)) (.inl rfl)
  | little =>
    rw [responseCount_little hfew, Header.NoCarry]
    simp only [reduceCtorEq, false_or]
    omega

end

end Counts

section Effects

theorem foldl_last {σ β α γ : Type} {f : σ → β → σ} {get : σ → γ} {put : α → γ} {out : β → List α}
    (hstep : ∀ s b, get (f s b) = ((out b).getLast?.map put).getD (get s)) (s : σ) (bs : List β) :
    get (bs.foldl f s) = ((bs.flatMap out).getLast?.map put).getD (get s) := by
  induction bs generalizing s with
  | nil => rfl
  | cons b bs ih =>
    rw [foldl_cons, ih, hstep, flatMap_cons, getLast?_append]
    cases (bs.flatMap out).getLast? with
    | none => rfl
    | some a => rfl

def Info.nsid (info : Info) : Option CStr × ℕ := (info.nsidPayload, info.nsidLength)

def recordedNsid (payload : CStr) : Option CStr × ℕ := (some payload, payload.length)

theorem nsid_records (info : Info) (rs : List Record) : Info.nsid (rs.foldl Record.record info) =
    ((rs.flatMap fun r => r.data.nsids).getLast?.map recordedNsid).getD (Info.nsid info) := by
  refine foldl_last (fun info r => ?_) info rs
  rw [Record.record, Data.nsids.eq_def]
  cases r.data with
  | opt options =>
    refine foldl_last (fun info o => ?_) info options
    rw [OptOption.record]
    split_ifs <;> rfl
  | other type htype bytes =>
    dsimp only
    split_ifs <;> rfl

theorem rrsig_record (info : Info) (r : Record) : (r.record info).rrsig = (info.rrsig || decide (r.data.type = 46)) := by
  rw [Record.record]
  cases r.data with
  | opt options =>
    have hkept : (options.foldl OptOption.record info).rrsig = info.rrsig := by
      induction options generalizing info with
      | nil => rfl
      | cons o options ih =>
        rw [foldl_cons, ih, OptOption.record]
        split_ifs <;> rfl
    rw [Data.type, decide_eq_false (by decide), Bool.or_false]
    exact hkept
  | other type htype bytes =>
    rw [Data.type]
    dsimp only
    split_ifs with h46
    · simp [h46]
    · simp [h46]

theorem rrsig_records (info : Info) (rs : List Record) : (rs.foldl Record.record info).rrsig =
    (info.rrsig || rs.any fun r => r.data.type = 46) := by
  induction rs generalizing info with
  | nil => simp
  | cons r rs ih => rw [foldl_cons, ih, rrsig_record, any_cons, Bool.or_assoc]

end Effects

structure Recorded (r : Response) (before after : Info) : Prop where
  bytes : after.bytes = r.msg.length
  rrsig : after.rrsig = (before.rrsig || r.records.any fun rr => rr.data.type = 46)
  nsid : Info.nsid after = (r.nsid.map recordedNsid).getD (Info.nsid before)

/-- Recorded in the entry of a destination, in every state of the test, whatever is behind the
message. -/
def VisitsRecords (e : Endian) (ident : UInt16) {count : ℕ} (i : Fin count) (r : Response) : Prop :=
  ∀ (g : DnsGlobals count), g.ident = ident → ∀ (behind : CStr) (now : TimeVal), ∃ enough, ∀ fuel,
    enough ≤ fuel → ∀ names, ∃ g', processPacket e fuel names (r.msg ++ behind) now g = .ok g' ∧ Recorded r (g.info i) (g'.info i)

section Results

variable {count : ℕ} {i : Fin count} {ident : UInt16} {r : Response}

theorem field_id (r : Response) (behind : CStr) : field (r.msg ++ behind) 0 = .ok r.id.toNat := by
  obtain ⟨rest, hrest⟩ := r.header
  refine field_htons [] ([r.flags.1, r.flags.2] ++ htons 1 ++ htons (UInt16.ofNat r.answer.length) ++
    htons (UInt16.ofNat r.authority.length) ++ htons (UInt16.ofNat r.additional.length) ++ rest ++ behind) ?_ rfl
  rw [← hrest]
  simp only [append_assoc, nil_append]

theorem length_records (r : Response) : r.records.length = r.counts.anCount + r.counts.nsCount + r.counts.arCount := by
  rw [Response.records, length_append, length_append]
  rfl

def globalsWith (ident : UInt16) (info : Info) : DnsGlobals count :=
  ⟨exampleOptions, ⟨-1, -1⟩, fun _ => none, fun _ => info, fun _ => info, ident, 0, 0, true, false, false⟩

theorem RecordsAt.eq_nil {msg : CStr} {pos : ℕ} {rs : List Record} (h : RecordsAt msg pos rs pos) : rs = [] := by
  have hle := h.length_le
  exact length_eq_zero_iff.mp (by omega)

theorem VisitsRecords.wire {e : Endian} (h : VisitsRecords e ident i r) : ident.toNat + i < 65536 := by
  by_contra hwraps
  let g : DnsGlobals count := globalsWith ident { Info.zero with bytes := r.msg.length + 1 }
  obtain ⟨enough, hrun⟩ := h g rfl [] ⟨0, 0⟩
  obtain ⟨g', hok, hrecorded⟩ := hrun enough le_rfl fun _ => FixedBuffer.Buffer.fill _ 0
  have hother : field (r.msg ++ []) 0 ≠ .ok (g.ident.toNat + i) := by
    rw [field_id]
    have hlt := r.id.toNat_lt
    refine fun heq => hwraps ?_
    rw [show ident.toNat + i = r.id.toNat from (Except.ok.inj heq).symm]
    exact hlt
  have hbytes := hrecorded.bytes
  rw [processPacket_frame hother hok] at hbytes
  exact absurd hbytes (Nat.succ_ne_self _)

theorem field_wire (hid : r.id = queryIdent ident i) (hwire : ident.toNat + i < 65536) (behind : CStr) :
    field (r.msg ++ behind) 0 = .ok (ident.toNat + i) := by
  rw [field_id, hid, toNat_queryIdent, Nat.mod_eq_of_lt hwire]

theorem responseCount_le_records (e : Endian) (r : Response) : r.counts.responseCount e ≤ r.records.length := by
  rw [length_records]
  exact responseCount_le e r.few_records

theorem VisitsRecords.all_counted {e : Endian} (h : VisitsRecords e ident i r)
    (hid : r.id = queryIdent ident i) : r.counts.responseCount e = r.records.length := by
  obtain ⟨mid, enough, -, hrest, hrecord⟩ := recordResponse_response e r []
  let g : DnsGlobals count := globalsWith ident Info.zero
  obtain ⟨enough', hrun⟩ := h g rfl [] ⟨0, 0⟩
  obtain ⟨g', hok, hrecorded⟩ := hrun (max enough enough') (le_max_right _ _) fun _ => FixedBuffer.Buffer.fill _ 0
  have hactual := hrecord (responseCount_le_records e r) (max enough enough') (le_max_left _ _)
    (fun _ => FixedBuffer.Buffer.fill _ 0) ⟨0, 0⟩ (g.info i)
  cases (processPacket_at (field_wire hid h.wire []) hactual).symm.trans hok
  -- the size is that of the whole message, so no record is left
  have hmid : mid = r.msg.length := by
    have hbytes := hrecorded.bytes
    simp only [Globals.setInfo, Function.update_self] at hbytes
    exact hbytes
  rw [hmid] at hrest
  exact le_antisymm (responseCount_le_records e r) (drop_eq_nil_iff.mp hrest.eq_nil)

theorem visitsRecords_of_count {e : Endian} (hid : r.id = queryIdent ident i)
    (hwire : ident.toNat + i < 65536) (hall : r.counts.responseCount e = r.records.length) :
    VisitsRecords e ident i r := by
  rintro g rfl behind now
  obtain ⟨mid, enough, -, hrest, hrecord⟩ := recordResponse_response e r behind
  rw [hall, drop_length] at hrest
  cases hrest
  refine ⟨enough, fun fuel hfuel names => ?_⟩
  have hactual := hrecord hall.le fuel hfuel names now (g.info i)
  rw [hall, take_length] at hactual
  refine ⟨_, processPacket_at (field_wire hid hwire behind) hactual, ?_⟩
  simp only [Globals.setInfo, Function.update_self]
  exact
    { bytes := rfl
      rrsig := rrsig_records _ _
      nsid := nsid_records _ _ }

theorem visitsRecords_iff (e : Endian) (i : Fin count) (ident : UInt16) (r : Response)
    (hid : r.id = queryIdent ident i) : VisitsRecords e ident i r ↔ ident.toNat + i < 65536 ∧
      (e = .big ∨ r.answer.length % 256 + r.authority.length % 256 + r.additional.length % 256 < 256) := by
  have hcount := responseCount_eq_iff e r.few_records
  rw [← length_records] at hcount
  constructor
  · exact fun hvisits => ⟨hvisits.wire, hcount.mp (hvisits.all_counted hid)⟩
  · rintro ⟨hwire, hcarry⟩
    exact visitsRecords_of_count hid hwire (hcount.mpr hcarry)

end Results

/-! Messages in which all names are empty. -/

section Root

def rootRecords (rs : List Record) : CStr := rs.flatMap fun r => 0 :: r.body

def rootHeader (id : UInt16) (answer authority additional : List Record) : CStr :=
  htons id ++ [0x80, 0] ++ htons 1 ++ htons (UInt16.ofNat answer.length) ++
    htons (UInt16.ofNat authority.length) ++ htons (UInt16.ofNat additional.length)

def rootMessage (id : UInt16) (answer authority additional : List Record) : CStr :=
  rootHeader id answer authority additional ++ 0 :: (htons 1 ++ htons 1) ++ rootRecords (answer ++ authority ++ additional)

variable {rs answer authority additional : List Record}

theorem recordsAt_root (hroot : ∀ r ∈ rs, r.labels = []) (before : CStr) :
    RecordsAt (before ++ rootRecords rs) before.length rs (before ++ rootRecords rs).length := by
  induction rs generalizing before with
  | nil =>
    rw [rootRecords, flatMap_nil, append_nil]
    exact .nil
  | cons r rs ih =>
    have hname : NameAt (before ++ rootRecords (r :: rs)) before.length r.labels (before.length + 1) := by
      rw [hroot r (mem_cons_self ..)]
      exact .root (by simp [rootRecords])
    have hsplit : before ++ rootRecords (r :: rs) = before ++ 0 :: r.body ++ rootRecords rs := by
      rw [rootRecords, flatMap_cons, append_assoc]
      rfl
    have hlength : (before ++ 0 :: r.body).length = before.length + 1 + r.body.length := by
      rw [length_append, length_cons]
      omega
    have hrest := ih (fun r hr => hroot r (mem_cons_of_mem _ hr)) (before ++ 0 :: r.body)
    rw [hlength, ← hsplit] at hrest
    refine .cons hname ?_ hrest
    refine ⟨rootRecords rs, ?_⟩
    rw [hsplit, append_assoc, ← drop_drop, drop_left, cons_append, drop_one, tail_cons]

theorem question_root (id : UInt16) : NameAt (rootMessage id answer authority additional) sizeofDns []
    (sizeofDns + 1) := .root rfl

def rootResponse (id : UInt16) (hshort : (rootMessage id answer authority additional).length < 65536)
    (hroot : ∀ r ∈ answer ++ authority ++ additional, r.labels = []) : Response where
  msg := rootMessage id answer authority additional
  short := hshort
  id := id
  flags := (0x80, 0)
  isResponse := by decide
  answer := answer
  authority := authority
  additional := additional
  header := ⟨0 :: (htons 1 ++ htons 1) ++ rootRecords (answer ++ authority ++ additional), by
    rw [rootMessage, append_assoc]
    rfl⟩
  qname := []
  qend := sizeofDns + 1
  question := question_root id
  recordsAt := recordsAt_root hroot _

end Root

def emptyRecord (type : UInt16) (h : type ≠ 41) : Record :=
  ⟨[], by decide, 1, [0, 0, 0, 0], rfl, .other type h [], Nat.succ_pos _⟩

def nsidRecord : Record :=
  ⟨[], by decide, 4096, [0, 0, 0, 0], rfl, .opt [serverOption], by decide⟩

def signature : Record := emptyRecord 46 (by decide)

def addressRecord (address : CStr) (h : address.length < 65536) : Record :=
  ⟨[], by decide, 1, [0, 0, 14, 16], rfl, .other 1 (by decide) address, h⟩

/-- Two addresses and their signature, a name server, and its address before the option. -/
def signedResponse : Response :=
  @rootResponse [addressRecord [192, 0, 2, 1] (by decide), addressRecord [192, 0, 2, 2] (by decide), signature]
    [emptyRecord 2 (by decide)] [addressRecord [192, 0, 2, 3] (by decide), nsidRecord] 0x1234 (by decide) (by decide)

theorem signed_response_visited : VisitsRecords .little 0x1232 (2 : Fin 3) signedResponse ∧
    signedResponse.records.length = 6 ∧ signedResponse.nsid = some (cstr "ns1") := by
  refine ⟨(visitsRecords_iff .little 2 0x1232 signedResponse (by decide)).mpr ⟨by decide, .inr ?_⟩, rfl, by decide⟩
  decide

def crowdedAnswer : List Record := replicate 255 (emptyRecord 1 (by decide))

def crowdedAuthority : List Record := [emptyRecord 1 (by decide)]

theorem crowded_short : (rootMessage 0x1234 crowdedAnswer crowdedAuthority []).length < 65536 := by
  decide +kernel

theorem crowded_root : ∀ r ∈ crowdedAnswer ++ crowdedAuthority ++ [], r.labels = [] := by
  decide +kernel

def crowdedResponse : Response := rootResponse 0x1234 crowded_short crowded_root

/-- The sum of 255 and 1, with bytes exchanged, is zero in 16 bits. -/
theorem crowded_response_missed : crowdedResponse.counts.responseCount .little = 0 ∧ crowdedResponse.msg.length = 2833 ∧
      ¬ VisitsRecords .little 0x1234 (0 : Fin 1) crowdedResponse := by
  have hzero : crowdedResponse.counts.responseCount .little = 0 := by decide +kernel
  refine ⟨hzero, by decide +kernel, fun h => ?_⟩
  have hall := h.all_counted (by decide +kernel)
  rw [hzero] at hall
  exact absurd hall (by decide +kernel)

end Amplet.DnsRecords
