import Amplet.DnsQuery
import Amplet.ProbeTest

/-!
# Responses to DNS queries

Embedding of `process_packet` and `process_opt_rr` in `src/tests/dns/dns.c`. The packet
is the memory of the buffer it was received into, and a pointer into it is a position.
Names are decoded into fresh memory, whatever that holds.
-/

namespace Amplet.DnsResponse
open List Bytes DnsNames DnsQuery Failing ProbeTest ScheduleTime SocketAddress

inductive ResponseCode
  | responseOk
  | missing
  | invalid
  | notFound
deriving DecidableEq, Repr

structure Info where
  nsidPayload : Option CStr
  addr : Option ℕ
  timeSent : TimeVal
  delay : ℕ
  queryLength : ℕ
  bytes : ℕ
  flags : UInt8 × UInt8
  totalAnswer : ℕ
  totalAuthority : ℕ
  totalAdditional : ℕ
  nsidLength : ℕ
  reply : Bool
  responseCode : ResponseCode
  rrsig : Bool
deriving DecidableEq, Repr

def Info.zero : Info where
  nsidPayload := none
  addr := none
  timeSent := ⟨0, 0⟩
  delay := 0
  queryLength := 0
  bytes := 0
  flags := (0, 0)
  totalAnswer := 0
  totalAuthority := 0
  totalAdditional := 0
  nsidLength := 0
  reply := false
  responseCode := .responseOk
  rrsig := false

def field (data : CStr) (pos : ℕ) : Except Fault ℕ :=
  match data[pos]?, data[pos + 1]? with
  | some high, some low => .ok (high.toNat * 256 + low.toNat)
  | _, _ => .error .memory

def byteAt (data : CStr) (pos : ℕ) : Except Fault UInt8 :=
  match data[pos]? with
  | some byte => .ok byte
  | none => .error .memory

def copyBytes (data : CStr) (pos n : ℕ) : Except Fault CStr :=
  if pos + n ≤ data.length then .ok ((data.drop pos).take n) else .error .memory

def takeOption (data : CStr) (pos : ℕ) (info : Info) : Except Fault (ℕ × Info) := do
  let code ← field data pos
  let length ← field data (pos + 2)
  if code = 3 then do
    let payload ← copyBytes data (pos + sizeofDnsOptRdata) length
    .ok (length, { info with nsidLength := length, nsidPayload := some payload })
  else .ok (length, info)

/-- Every turn reads a header, so the loop leaves the packet before the turns are used up, see
`optLoop_turns`. -/
def optLoop (data : CStr) : ℕ → ℕ → UInt16 → Info → Except Fault Info
  | 0, _, _, _ => .error .memory
  | turns + 1, pos, rrlen, info => do
    let (length, info) ← takeOption data pos info
    let rrlen := rrlen - 4 - UInt16.ofNat length
    if rrlen > 0 then optLoop data turns (pos + length + sizeofDnsOptRdata) rrlen info
    else if rrlen = 0 then .ok info else .error .assertion

def processOptRr (data : CStr) (rr : ℕ) (rrlen : UInt16) (info : Info) : Except Fault Info :=
  optLoop data (data.length + 1) rr rrlen info

structure Header where
  id : ℕ
  flags : UInt8 × UInt8
  qdCount : ℕ
  anCount : ℕ
  nsCount : ℕ
  arCount : ℕ

def readHeader (packet : CStr) : Except Fault Header := do
  let id ← field packet 0
  let high ← byteAt packet 2
  let low ← byteAt packet 3
  let qdCount ← field packet 4
  let anCount ← field packet 6
  let nsCount ← field packet 8
  let arCount ← field packet 10
  .ok ⟨id, (high, low), qdCount, anCount, nsCount, arCount⟩

/-- The bit `qr` is the highest one of the flags for both byte orders. -/
def Header.qr (h : Header) : Bool := h.flags.1 &&& 0x80 ≠ 0

def Header.rcode (h : Header) : UInt8 := h.flags.2 &&& 0x0f

/-- The counts are added as the machine loads them, and `ntohs` takes 16 bits of the sum. -/
def Header.responseCount (e : Endian) (h : Header) : ℕ :=
  let loaded (x : ℕ) : BitVec 16 := (ntohs e).swap (BitVec.ofNat 16 x)
  ((ntohs e).swap (loaded h.anCount + loaded h.nsCount + loaded h.arCount)).toNat

def Header.responseCode (e : Endian) (h : Header) : ResponseCode :=
  if h.qr = false then .invalid
  else if h.qdCount ≠ 1 then .invalid
  else if h.rcode ≠ 0 then .notFound
  else if h.responseCount e < 1 then .notFound
  else .responseOk

def skipName (fuel : ℕ) (result : Option NameBuffer) (packet : CStr) (pos : ℕ) : Except Fault ℕ :=
  match decode fuel result packet pos with
  | some (_, next) => .ok next
  | none => .error .name

def skipQuestions (fuel : ℕ) (packet : CStr) : ℕ → ℕ → Except Fault ℕ
  | 0, pos => .ok pos
  | n + 1, pos => do
    let next ← skipName fuel none packet pos
    skipQuestions fuel packet n (next + sizeofDnsQuery)

def sizeofDnsOptRr : ℕ := 10

def processRecordData (packet : CStr) (rr type rdlen : ℕ) (info : Info) : Except Fault Info :=
  if type = 41 then
    if sizeofDnsOptRdata ≤ rdlen then
      processOptRr packet (rr + sizeofDnsOptRr) (UInt16.ofNat rdlen) info
    else .ok info
  else if type = 46 then .ok { info with rrsig := true }
  else .ok info

def processRecord (fuel : ℕ) (name : NameBuffer) (packet : CStr) (pos : ℕ) (info : Info) : Except Fault (ℕ × Info) := do
  let rr ← skipName fuel (some name) packet pos
  let type ← field packet rr
  let rdlen ← field packet (rr + 8)
  let info ← processRecordData packet rr type rdlen info
  .ok (rr + sizeofDnsOptRr + rdlen, info)

def processRecords (fuel : ℕ) (names : ℕ → NameBuffer) (packet : CStr) : ℕ → ℕ → ℕ → Info → Except Fault (ℕ × Info)
  | 0, _, pos, info => .ok (pos, info)
  | n + 1, i, pos, info => do
    let (pos, info) ← processRecord fuel (names i) packet pos info
    processRecords fuel names packet n (i + 1) pos info

def Info.withHeader (info : Info) (e : Endian) (h : Header) : Info :=
  { info with
    reply := true
    flags := h.flags
    totalAnswer := h.anCount
    totalAuthority := h.nsCount
    totalAdditional := h.arCount
    responseCode := h.responseCode e }

def recordResponse (e : Endian) (fuel : ℕ) (names : ℕ → NameBuffer) (packet : CStr) (now : TimeVal)
    (info : Info) : Except Fault Info := do
  let h ← readHeader packet
  let info := info.withHeader e h
  if h.responseCode e = .responseOk ∨ h.responseCode e = .notFound then do
    let pos ← skipQuestions fuel packet h.qdCount sizeofDns
    let (pos, info) ← processRecords fuel names packet (h.responseCount e) 0 pos info
    .ok { info with bytes := pos, delay := recordedDelay now info.timeSent }
  else .ok { info with bytes := 0, delay := recordedDelay now info.timeSent }

def responseIndex (ident : UInt16) (count recvIdent : ℕ) : Option ℕ :=
  if recvIdent < ident.toNat ∨ recvIdent - ident.toNat > count then none
  else some (recvIdent - ident.toNat)

def queryIdent (ident : UInt16) (seq : ℕ) : UInt16 := UInt16.ofNat (seq + ident.toNat)

abbrev DnsGlobals := Globals Options Info

def processPacket {count : ℕ} (e : Endian) (fuel : ℕ) (names : ℕ → NameBuffer) (packet : CStr)
    (now : TimeVal) (g : DnsGlobals count) : Except Fault (DnsGlobals count) := do
  let recvIdent ← field packet 0
  match responseIndex g.ident count recvIdent with
  | none => .ok g
  | some index => do
    let info ← recordResponse e fuel names packet now (g.entry index)
    .ok { g.setEntry index info with outstanding := g.outstanding - 1 }

section Fields

variable {data : CStr} {pos : ℕ}

theorem field_eq_ok {x : ℕ} (h : field data pos = .ok x) : pos + 2 ≤ data.length ∧ x < 65536 := by
  rw [field] at h
  split at h
  · rename_i high low hhigh hlow
    obtain ⟨hlt, -⟩ := List.getElem?_eq_some_iff.mp hlow
    have hhigh := high.toNat_lt
    have hlow := low.toNat_lt
    cases h
    omega
  · cases h

theorem field_htons (before behind : CStr) {x : UInt16} (hdata : data = before ++ (htons x ++ behind))
    (hpos : pos = before.length) : field data pos = .ok x.toNat := by
  subst hdata hpos
  have hhigh : (before ++ (htons x ++ behind))[before.length]? = some (x >>> 8).toUInt8 := by
    simp [htons]
  have hlow : (before ++ (htons x ++ behind))[before.length + 1]? = some x.toUInt8 := by
    simp [htons]
  rw [field, hhigh, hlow]
  exact congrArg _ (htons_toNat x)

theorem htons_ofNat (high low : UInt8) : htons (UInt16.ofNat (high.toNat * 256 + low.toNat)) = [high, low] := by
  have hhigh := high.toNat_lt
  have hlow := low.toNat_lt
  rw [htons]
  congr 1
  · apply UInt8.toNat_inj.mp
    rw [UInt16.toNat_toUInt8, UInt16.toNat_shiftRight, UInt16.toNat_ofNat', Nat.shiftRight_eq_div_pow]
    change (high.toNat * 256 + low.toNat) % 2 ^ 16 / 2 ^ 8 % 256 = high.toNat
    omega
  · congr 1
    apply UInt8.toNat_inj.mp
    rw [UInt16.toNat_toUInt8, UInt16.toNat_ofNat']
    omega

theorem drop_field {x : ℕ} (h : field data pos = .ok x) : data.drop pos = htons (UInt16.ofNat x) ++ data.drop (pos + 2) := by
  rw [field] at h
  split at h
  · rename_i high low hhigh hlow
    obtain ⟨hlt, hhigh⟩ := List.getElem?_eq_some_iff.mp hhigh
    obtain ⟨hlt', hlow⟩ := List.getElem?_eq_some_iff.mp hlow
    cases h
    rw [htons_ofNat, drop_eq_getElem_cons hlt, drop_eq_getElem_cons hlt', hhigh, hlow]
    rfl
  · cases h

theorem byteAt_cons (before behind : CStr) {b : UInt8} (hdata : data = before ++ b :: behind) (hpos : pos = before.length) :
    byteAt data pos = .ok b := by
  subst hdata hpos
  rw [byteAt]
  simp

theorem copyBytes_at (before behind : CStr) {bytes : CStr} (hdata : data = before ++ (bytes ++ behind))
    (hpos : pos = before.length) : copyBytes data pos bytes.length = .ok bytes := by
  subst hdata hpos
  rw [copyBytes, if_pos (by simp), drop_left, take_left]

end Fields

section Matching

variable {count : ℕ} {i : Fin count} {ident : UInt16} {index : ℕ}

theorem responseIndex_eq_some {recvIdent : ℕ} (h : responseIndex ident count recvIdent = some index) :
    recvIdent = ident.toNat + index ∧ index ≤ count := by
  rw [responseIndex] at h
  split_ifs at h with hrejected
  have hindex := Option.some.inj h
  omega

theorem responseIndex_of_le (h : index ≤ count) : responseIndex ident count (ident.toNat + index) = some index := by
  rw [responseIndex, if_neg (by omega), Nat.add_sub_cancel_left]

theorem toNat_queryIdent (ident : UInt16) (seq : ℕ) : (queryIdent ident seq).toNat = (ident.toNat + seq) % 65536 := by
  rw [queryIdent, UInt16.toNat_ofNat', Nat.add_comm]

end Matching

/-! The records change what they are about and leave the mark of the entry. -/

section Marks

variable {packet : CStr} {fuel pos : ℕ} {info info' : Info} {next : ℕ}

theorem takeOption_reply {length : ℕ} (h : takeOption packet pos info = .ok (length, info')) : info'.reply = info.reply := by
  obtain ⟨code, -, h⟩ := bind_eq_ok.mp h
  obtain ⟨n, -, h⟩ := bind_eq_ok.mp h
  split_ifs at h
  · obtain ⟨payload, -, h⟩ := bind_eq_ok.mp h
    cases h
    rfl
  · cases h
    rfl

theorem optLoop_reply {turns : ℕ} {rrlen : UInt16} (h : optLoop packet turns pos rrlen info = .ok info') :
    info'.reply = info.reply := by
  induction turns generalizing pos rrlen info with
  | zero => cases h
  | succ turns ih =>
    obtain ⟨⟨length, info₁⟩, htake, h⟩ := bind_eq_ok.mp h
    have hsame := takeOption_reply htake
    dsimp only at h
    split_ifs at h
    · exact (ih h).trans hsame
    · cases h
      exact hsame

theorem processRecord_reply {name : NameBuffer} (h : processRecord fuel name packet pos info = .ok (next, info')) :
    info'.reply = info.reply := by
  obtain ⟨rr, -, h⟩ := bind_eq_ok.mp h
  obtain ⟨type, -, h⟩ := bind_eq_ok.mp h
  obtain ⟨rdlen, -, h⟩ := bind_eq_ok.mp h
  obtain ⟨info₁, hdata, h⟩ := bind_eq_ok.mp h
  cases h
  rw [processRecordData] at hdata
  split_ifs at hdata
  · exact optLoop_reply hdata
  all_goals
    cases hdata
    rfl

theorem processRecords_reply {names : ℕ → NameBuffer} {n i : ℕ}
    (h : processRecords fuel names packet n i pos info = .ok (next, info')) :
    info'.reply = info.reply := by
  induction n generalizing i pos info with
  | zero =>
    cases h
    rfl
  | succ n ih =>
    obtain ⟨⟨pos₁, info₁⟩, hrecord, h⟩ := bind_eq_ok.mp h
    exact (ih h).trans (processRecord_reply hrecord)

theorem recordResponse_reply {e : Endian} {names : ℕ → NameBuffer} {now : TimeVal}
    (h : recordResponse e fuel names packet now info = .ok info') : info'.reply = true := by
  obtain ⟨header, -, h⟩ := bind_eq_ok.mp h
  dsimp only at h
  split_ifs at h
  · obtain ⟨first, -, h⟩ := bind_eq_ok.mp h
    obtain ⟨⟨next, info₁⟩, hrecords, h⟩ := bind_eq_ok.mp h
    cases h
    exact processRecords_reply hrecords
  · cases h
    rfl

end Marks

section Packets

variable {count fuel : ℕ} {i : Fin count} {e : Endian} {names : ℕ → NameBuffer} {packet : CStr}
  {now : TimeVal} {g g' : DnsGlobals count}

theorem processPacket_cases (h : processPacket e fuel names packet now g = .ok g') :
    (g' = g ∧ ∀ index ≤ count, field packet 0 ≠ .ok (g.ident.toNat + index)) ∨
      ∃ index ≤ count, ∃ x : Info, field packet 0 = .ok (g.ident.toNat + index) ∧ x.reply = true ∧
        g' = { g.setEntry index x with outstanding := g.outstanding - 1 } := by
  obtain ⟨recvIdent, hid, h⟩ := bind_eq_ok.mp h
  cases hindex : responseIndex g.ident count recvIdent with
  | none =>
    rw [hindex] at h
    cases h
    refine .inl ⟨rfl, fun index hle hfield => ?_⟩
    obtain rfl := Except.ok.inj (hid.symm.trans hfield)
    cases (responseIndex_of_le hle).symm.trans hindex
  | some index =>
    rw [hindex] at h
    dsimp only at h
    obtain ⟨x, hrecord, h⟩ := bind_eq_ok.mp h
    cases h
    obtain ⟨rfl, hle⟩ := responseIndex_eq_some hindex
    exact .inr ⟨index, hle, x, hid, recordResponse_reply hrecord, rfl⟩

theorem processPacket_frame (hother : field packet 0 ≠ .ok (g.ident.toNat + i))
    (h : processPacket e fuel names packet now g = .ok g') : g'.info i = g.info i := by
  rcases processPacket_cases h with ⟨rfl, -⟩ | ⟨index, -, x, hid, -, rfl⟩
  · rfl
  · exact setEntry_info_of_ne g x fun hindex => hother (hindex ▸ hid)

theorem processPacket_at {info : Info} (hid : field packet 0 = .ok (g.ident.toNat + i))
    (hrecord : recordResponse e fuel names packet now (g.info i) = .ok info) :
    processPacket e fuel names packet now g = .ok { g.setInfo i info with outstanding := g.outstanding - 1 } := by
  rw [processPacket, hid, ok_bind, responseIndex_of_le i.isLt.le]
  dsimp only
  rw [entry_val, hrecord, ok_bind, setEntry_val]

end Packets

end Amplet.DnsResponse
