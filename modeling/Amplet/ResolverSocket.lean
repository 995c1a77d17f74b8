import Amplet.LengthFraming
import Amplet.SocketAddress
import Amplet.TargetLists

/-!
# The resolver socket

Embedding of both ends of the local resolver socket: `amp_resolve_add_new`,
`amp_resolve_flag_done` and `amp_resolve_get_list` in `src/common/ampresolv.c` and the
loops of `amp_resolver_worker_thread` in `src/measured/nssock.c`. A call of `recv` gets
what one `send` wrote; at the end of the stream it returns zero. A buffer keeps the
bytes that a shorter record does not overwrite.
-/

namespace Amplet.ResolverSocket
open Bytes LengthFraming SocketAddress TargetLists Option
open List hiding Vector

def maxDnsNameLen : ℕ := 256

def overwrite (bytes buf : List UInt8) : List UInt8 := bytes ++ buf.drop bytes.length

def recv (n : ℕ) (buf stream : List UInt8) : Option (List UInt8 × List UInt8) :=
  match stream.take n with
  | [] => none
  | b :: bytes => some (overwrite (b :: bytes) buf, stream.drop n)

/-- `none` when the search for the end leaves the buffer. -/
def readString (buf : List UInt8) : Option CStr :=
  if 0 ∈ buf then some (buf.takeWhile (· ≠ 0)) else none

/-- `namelen` as both ends compute it, with the terminator and in eight bits -/
def namelen (name : CStr) : UInt8 := UInt8.ofNat (name.length + 1)

def nameBytes (name : CStr) : List UInt8 := (name ++ [0]).take (namelen name).toNat

def familyCode : Family → UInt8
  | .unspec => 0
  | .inet => 2
  | .inet6 => 10

structure Query where
  name : CStr
  family : UInt8
  count : UInt8
deriving DecidableEq, Repr

def query (dest : ResolveDest) : Query := ⟨dest.name, familyCode dest.family, dest.count⟩

def ampResolveAddNew (dest : ResolveDest) : List UInt8 :=
  [namelen dest.name, dest.count, familyCode dest.family] ++ nameBytes dest.name

def ampResolveFlagDone : List UInt8 := [0, 0, 0]

def sendQueries (dests : List ResolveDest) : List UInt8 :=
  (dests.map ampResolveAddNew).flatten ++ ampResolveFlagDone

@[simp] theorem sendQueries_cons (dest : ResolveDest) (dests : List ResolveDest) :
    sendQueries (dest :: dests) = ampResolveAddNew dest ++ sendQueries dests := by
  simp [sendQueries]

/-- At the marker, at the end of the stream, at a name without an end, or not within the given
turns. -/
inductive Stop
  | marker
  | closed
  | undefined
  | waiting
deriving DecidableEq, Repr

/-- The first loop of `amp_resolver_worker_thread`; the queries are the calls of
`amp_resolve_add`. -/
def readQueries : ℕ → List UInt8 → List UInt8 → List UInt8 → List Query × Stop
  | 0, _, _, _ => ([], .waiting)
  | turns + 1, info, name, stream =>
    match recv 3 info stream with
    | none => ([], .closed)
    | some (info, stream) =>
      if info.getD 0 0 = 0 then ([], .marker)
      else
        match recv (info.getD 0 0).toNat name stream with
        | none => ([], .closed)
        | some (name, stream) =>
          match readString name with
          | none => ([], .undefined)
          | some text =>
            let (queries, stop) := readQueries turns info name stream
            (⟨text, info.getD 2 0, info.getD 1 0⟩ :: queries, stop)

@[simp] theorem toNat_namelen (name : CStr) : (namelen name).toNat = (name.length + 1) % 256 := by
  rw [namelen, UInt8.toNat_ofNat']

def Fits (name : CStr) : Prop := name.length ≤ 254

instance (name : CStr) : Decidable (Fits name) := inferInstanceAs (Decidable (_ ≤ _))

variable {name : CStr} {info item buf : List UInt8} {answer : Answer} {turns : ℕ}

theorem nameBytes_of_fits (h : Fits name) : nameBytes name = name ++ [0] := by
  have hlen : (namelen name).toNat = (name ++ [0]).length := by
    rw [Fits] at h
    rw [toNat_namelen, length_append, length_singleton]
    omega
  rw [nameBytes, hlen, take_length]

theorem length_nameBytes (name : CStr) : (nameBytes name).length = (namelen name).toNat := by
  have := Nat.mod_le (name.length + 1) 256
  simp [nameBytes, this]

theorem recv_append {bytes : List UInt8} (hne : bytes ≠ []) (buf rest : List UInt8) :
    recv bytes.length buf (bytes ++ rest) = some (overwrite bytes buf, rest) := by
  cases bytes with
  | nil => exact absurd rfl hne
  | cons b bytes => simp [recv]

theorem overwrite_eq_self {bytes : List UInt8} (h : buf.length ≤ bytes.length) : overwrite bytes buf = bytes := by
  rw [overwrite, drop_eq_nil_of_le h, append_nil]

theorem length_overwrite_nameBytes (name : CStr) (h : buf.length = maxDnsNameLen) :
    (overwrite (nameBytes name) buf).length = maxDnsNameLen := by
  have hlt := UInt8.toNat_lt (namelen name)
  rw [maxDnsNameLen] at *
  rw [overwrite, length_append, length_drop, length_nameBytes, h]
  omega

theorem readString_append (h : 0 ∉ name) (rest : List UInt8) : readString (name ++ 0 :: rest) = some name := by
  rw [readString, if_pos (by simp), (Delimited.takeWhile_ne_cons h rest).1]

theorem readString_overwrite (h : 0 ∉ name) (hfit : Fits name) (buf : List UInt8) :
    readString (overwrite (nameBytes name) buf) = some name := by
  have hbuf : overwrite (nameBytes name) buf = name ++ 0 :: buf.drop (nameBytes name).length := by
    rw [overwrite, nameBytes_of_fits hfit, append_assoc, singleton_append]
  rw [hbuf, readString_append h]

theorem readString_length_lt (h : readString buf = some name) : name.length < buf.length := by
  rw [readString] at h
  split_ifs at h with hmem
  rw [← some.inj h]
  by_contra hge
  have heq : buf.takeWhile (· ≠ 0) = buf :=
    (List.takeWhile_prefix _).eq_of_length_le (not_lt.mp hge)
  have hb := takeWhile_eq_self_iff.mp heq 0 hmem
  simp at hb

theorem readQueries_record (turns : ℕ) (hinfo : info.length = 3) (name : List UInt8)
    (dest : ResolveDest) (rest : List UInt8) (hne : namelen dest.name ≠ 0) :
    readQueries (turns + 1) info name (ampResolveAddNew dest ++ rest) =
      match readString (overwrite (nameBytes dest.name) name) with
      | none => ([], .undefined)
      | some text =>
        (⟨text, familyCode dest.family, dest.count⟩ :: (readQueries turns [namelen dest.name, dest.count, familyCode dest.family]
            (overwrite (nameBytes dest.name) name) rest).1,
        (readQueries turns [namelen dest.name, dest.count, familyCode dest.family]
            (overwrite (nameBytes dest.name) name) rest).2) := by
  have hbytes : nameBytes dest.name ≠ [] := by
    intro hnil
    have hlen := length_nameBytes dest.name
    rw [hnil, length_nil] at hlen
    exact hne (UInt8.toNat_inj.mp hlen.symm)
  have hhead := recv_append (cons_ne_nil (namelen dest.name) [dest.count, familyCode dest.family]) info
    (nameBytes dest.name ++ rest)
  rw [overwrite_eq_self hinfo.le] at hhead
  simp only [length_cons, length_nil, Nat.zero_add, Nat.reduceAdd] at hhead
  have hname := recv_append hbytes name rest
  rw [length_nameBytes] at hname
  rw [readQueries, ampResolveAddNew, append_assoc, hhead]
  simp only [getD_cons_zero, getD_cons_succ, if_neg hne, hname]

theorem readQueries_marker (turns : ℕ) (hinfo : info.length = 3) (name rest : List UInt8)
    (header : List UInt8) (hlen : header.length = 3) (hzero : header.getD 0 0 = 0) :
    readQueries (turns + 1) info name (header ++ rest) = ([], .marker) := by
  have hne : header ≠ [] := by
    intro hnil
    simp [hnil] at hlen
  have hhead := recv_append hne info rest
  rw [overwrite_eq_self (by rw [hinfo, hlen]), hlen] at hhead
  rw [readQueries, hhead]
  exact if_pos hzero

theorem readString_ne_of_not_fits (hbuf : buf.length = maxDnsNameLen) {text : CStr} (hfit : ¬ Fits name) (hne : namelen name ≠ 0)
    (h : readString (overwrite (nameBytes name) buf) = some text) : text ≠ name := by
  have hshort := readString_length_lt h
  have hlt := UInt8.toNat_lt (namelen name)
  have hpos : (namelen name).toNat ≠ 0 := fun h => hne (UInt8.toNat_inj.mp h)
  have hmod := toNat_namelen name
  rw [Fits] at hfit
  rw [length_overwrite_nameBytes name hbuf, maxDnsNameLen] at hshort
  rintro rfl
  omega

theorem readQueries_not_fits (turns : ℕ) {name : List UInt8} (hinfo : info.length = 3)
    (hname : name.length = maxDnsNameLen) {dest : ResolveDest} (hfit : ¬ Fits dest.name)
    (rest : List UInt8) (queries : List Query) (stop : Stop) :
    readQueries turns info name (ampResolveAddNew dest ++ rest) ≠ (query dest :: queries, stop) := by
  cases turns with
  | zero => simp [readQueries]
  | succ turns =>
    by_cases hzero : namelen dest.name = 0
    · rw [ampResolveAddNew, append_assoc, readQueries_marker turns hinfo name _ _ (by simp) (by simpa using hzero)]
      simp
    · rw [readQueries_record turns hinfo name dest rest hzero]
      split
      next => simp
      next text htext =>
        intro heq
        have htext' : text = dest.name := by
          have hhd := congrArg (fun r => r.1.head?) heq
          simpa [query] using hhd
        exact readString_ne_of_not_fits hname hfit hzero htext htext'

theorem readQueries_fits (turns : ℕ) {name : List UInt8} (hinfo : info.length = 3)
    {dest : ResolveDest} (hnul : 0 ∉ dest.name) (hfit : Fits dest.name) (rest : List UInt8) :
    readQueries (turns + 1) info name (ampResolveAddNew dest ++ rest) =
      (query dest :: (readQueries turns [namelen dest.name, dest.count, familyCode dest.family]
          (overwrite (nameBytes dest.name) name) rest).1,
        (readQueries turns [namelen dest.name, dest.count, familyCode dest.family]
          (overwrite (nameBytes dest.name) name) rest).2) := by
  have hne : namelen dest.name ≠ 0 := by
    intro hzero
    have hmod := toNat_namelen dest.name
    rw [hzero, UInt8.toNat_zero] at hmod
    rw [Fits] at hfit
    omega
  rw [readQueries_record turns hinfo name dest rest hne, readString_overwrite hnul hfit]
  rfl

theorem readQueries_sendQueries {dests : List ResolveDest} (hnul : ∀ d ∈ dests, 0 ∉ d.name)
    (hturns : dests.length < turns) {name : List UInt8} (hinfo : info.length = 3)
    (hname : name.length = maxDnsNameLen) :
    readQueries turns info name (sendQueries dests) = (dests.map query, .marker) ↔ ∀ d ∈ dests, Fits d.name := by
  induction dests generalizing turns info name with
  | nil =>
    obtain ⟨turns, rfl⟩ := Nat.exists_eq_succ_of_ne_zero (Nat.ne_zero_of_lt hturns)
    have h := readQueries_marker turns hinfo name [] ampResolveFlagDone rfl rfl
    rw [append_nil] at h
    simpa [sendQueries] using h
  | cons d dests ih =>
    obtain ⟨turns, rfl⟩ := Nat.exists_eq_succ_of_ne_zero (Nat.ne_zero_of_lt hturns)
    rw [sendQueries_cons]
    by_cases hfit : Fits d.name
    · have hrest := ih (fun d' hd' => hnul d' (mem_cons_of_mem _ hd')) (Nat.lt_of_succ_lt_succ hturns)
        (show [namelen d.name, d.count, familyCode d.family].length = 3 from rfl)
        (length_overwrite_nameBytes d.name hname)
      rw [readQueries_fits turns hinfo (hnul d (mem_cons_self ..)) hfit, forall_mem_cons, ← hrest]
      simp [hfit, Prod.ext_iff]
    · constructor
      · intro h
        exact absurd h (readQueries_not_fits (turns + 1) hinfo hname hfit _ _ _)
      · intro h
        exact absurd (h d (mem_cons_self ..)) hfit

/-- The members that cross the socket; the length of `addr` is `ai_addrlen`. -/
structure Answer where
  flags : UInt32
  family : UInt32
  socktype : UInt32
  protocol : UInt32
  addr : List UInt8
  canonname : CStr
deriving DecidableEq, Repr

def hostWord (e : Endian) (n : ℕ) : List UInt8 :=
  match e with
  | .little => (encodeLength n).reverse
  | .big => encodeLength n

def hostValue (e : Endian) (bytes : List UInt8) : ℕ :=
  match e with
  | .little => decodeLength bytes.reverse
  | .big => decodeLength bytes

/-- The memory of a `struct addrinfo`: padding and pointers follow the members. -/
def addrinfoBytes (e : Endian) (answer : Answer) (pointers : Vector UInt8 28) : List UInt8 :=
  hostWord e answer.flags.toNat ++ hostWord e answer.family.toNat ++
    hostWord e answer.socktype.toNat ++ hostWord e answer.protocol.toNat ++
    hostWord e answer.addr.length ++ pointers.toList

def addrinfoWord (e : Endian) (item : List UInt8) (i : ℕ) : ℕ :=
  hostValue e ((item.drop (4 * i)).take 4)

def answerBytes (e : Endian) (answer : Answer) (pointers : Vector UInt8 28) (more : UInt8) :
    List UInt8 :=
  addrinfoBytes e answer pointers ++ (answer.addr ++ ([namelen answer.canonname] ++ (nameBytes answer.canonname ++ [more])))

/-- `none` where the assertion on `namelen` stops the process. -/
def sendAnswers (e : Endian) : List (Answer × Vector UInt8 28) → Option (List UInt8)
  | [] => some []
  | (answer, pointers) :: items =>
    if 1 < namelen answer.canonname then
      match sendAnswers e items with
      | none => none
      | some rest => some (answerBytes e answer pointers (if items.isEmpty then 0 else 1) ++ rest)
    else none

inductive Turn
  | closed
  | stopped
  | answer (answer : Answer) (more : UInt8) (item name stream : List UInt8)

def readAnswer (e : Endian) (item name stream : List UInt8) : Turn :=
  match recv 48 item stream with
  | none => .closed
  | some (item, stream) =>
    let addrlen := addrinfoWord e item 4
    match if 0 < addrlen then recv addrlen (replicate addrlen 0) stream
        else some ([], stream) with
    | none => .closed
    | some (addr, stream) =>
      match recv 1 [0] stream with
      | none => .closed
      | some (len, stream) =>
        if 1 < len.getD 0 0 then
          match recv (len.getD 0 0).toNat name stream with
          | none => .closed
          | some (name, stream) =>
            match readString name with
            | none => .stopped
            | some canonname =>
              match recv 1 [0] stream with
              | none => .closed
              | some (more, stream) =>
                .answer ⟨.ofNat (addrinfoWord e item 0), .ofNat (addrinfoWord e item 1),
                  .ofNat (addrinfoWord e item 2), .ofNat (addrinfoWord e item 3), addr,
                  canonname⟩ (more.getD 0 0) item name stream
        else .stopped

/-- `none` when the process stops or the turns do not suffice. -/
def ampResolveGetList (e : Endian) : ℕ → List UInt8 → List UInt8 → List Answer → List UInt8 → Option (List Answer)
  | 0, _, _, _, _ => none
  | turns + 1, item, name, addrlist, stream =>
    match readAnswer e item name stream with
    | .closed => some addrlist
    | .stopped => none
    | .answer answer more item name stream =>
      if more = 0 then some (answer :: addrlist)
      else ampResolveGetList e turns item name (answer :: addrlist) stream

@[simp] theorem length_hostWord (e : Endian) (n : ℕ) : (hostWord e n).length = 4 := by
  cases e <;> simp [hostWord]

theorem hostValue_hostWord (e : Endian) {n : ℕ} (h : n < 2 ^ 32) : hostValue e (hostWord e n) = n := by
  cases e <;> simp [hostWord, hostValue, decodeLength_encodeLength h]

@[simp] theorem length_addrinfoBytes (e : Endian) (answer : Answer)
    (pointers : Vector UInt8 28) : (addrinfoBytes e answer pointers).length = 48 := by
  simp [addrinfoBytes]

theorem addrinfoWord_append (e : Endian) (i : ℕ) (before : List UInt8)
    (hlen : before.length = 4 * i) {n : ℕ} (h : n < 2 ^ 32) (rest : List UInt8) :
    addrinfoWord e (before ++ (hostWord e n ++ rest)) i = n := by
  rw [addrinfoWord, ← hlen, drop_left, take_left' (length_hostWord e n), hostValue_hostWord e h]

theorem addrinfoWord_addrinfoBytes (e : Endian) (hlen : answer.addr.length < 2 ^ 32) (pointers : Vector UInt8 28) :
    addrinfoWord e (addrinfoBytes e answer pointers) 0 = answer.flags.toNat ∧
      addrinfoWord e (addrinfoBytes e answer pointers) 1 = answer.family.toNat ∧
      addrinfoWord e (addrinfoBytes e answer pointers) 2 = answer.socktype.toNat ∧
      addrinfoWord e (addrinfoBytes e answer pointers) 3 = answer.protocol.toNat ∧
      addrinfoWord e (addrinfoBytes e answer pointers) 4 = answer.addr.length := by
  let w0 := hostWord e answer.flags.toNat
  let w1 := hostWord e answer.family.toNat
  let w2 := hostWord e answer.socktype.toNat
  let w3 := hostWord e answer.protocol.toNat
  let w4 := hostWord e answer.addr.length
  refine ⟨?_, ?_, ?_, ?_, ?_⟩
  · simpa [addrinfoBytes, w1, w2, w3, w4] using addrinfoWord_append e 0 []
      rfl answer.flags.toNat_lt (w1 ++ w2 ++ w3 ++ w4 ++ pointers.toList)
  · simpa [addrinfoBytes, w0, w2, w3, w4] using addrinfoWord_append e 1 w0
      (by simp [w0]) answer.family.toNat_lt (w2 ++ w3 ++ w4 ++ pointers.toList)
  · simpa [addrinfoBytes, w0, w1, w3, w4] using addrinfoWord_append e 2 (w0 ++ w1)
      (by simp [w0, w1]) answer.socktype.toNat_lt (w3 ++ w4 ++ pointers.toList)
  · simpa [addrinfoBytes, w0, w1, w2, w4] using addrinfoWord_append e 3 (w0 ++ w1 ++ w2)
      (by simp [w0, w1, w2]) answer.protocol.toNat_lt (w4 ++ pointers.toList)
  · simpa [addrinfoBytes, w0, w1, w2, w3] using addrinfoWord_append e 4 (w0 ++ w1 ++ w2 ++ w3)
      (by simp [w0, w1, w2, w3]) hlen pointers.toList

theorem recv_address (addr rest : List UInt8) : (if 0 < addr.length then recv addr.length (replicate addr.length 0) (addr ++ rest)
      else some ([], addr ++ rest)) = some (addr, rest) := by
  cases addr with
  | nil => simp
  | cons b addr => simp [recv, overwrite]

theorem readAnswer_answerBytes (e : Endian) (hitem : item.length = 48) (name : List UInt8)
    (hlen : answer.addr.length < 2 ^ 32) (pointers : Vector UInt8 28) (more : UInt8)
    (hname : 1 < namelen answer.canonname) (rest : List UInt8) :
    readAnswer e item name (answerBytes e answer pointers more ++ rest) =
      match readString (overwrite (nameBytes answer.canonname) name) with
      | none => .stopped
      | some text => .answer { answer with canonname := text } more
          (addrinfoBytes e answer pointers)
          (overwrite (nameBytes answer.canonname) name) rest := by
  obtain ⟨h0, h1, h2, h3, h4⟩ := addrinfoWord_addrinfoBytes e hlen pointers
  have hmem : addrinfoBytes e answer pointers ≠ [] := by
    intro hnil
    have := length_addrinfoBytes e answer pointers
    simp [hnil] at this
  have hbytes : nameBytes answer.canonname ≠ [] := by
    intro hnil
    have hn := length_nameBytes answer.canonname
    rw [hnil, length_nil] at hn
    have := UInt8.lt_iff_toNat_lt.mp hname
    omega
  have hhead := recv_append hmem item (answer.addr ++ ([namelen answer.canonname] ++
    (nameBytes answer.canonname ++ ([more] ++ rest))))
  rw [overwrite_eq_self (by rw [hitem, length_addrinfoBytes]), length_addrinfoBytes] at hhead
  have hrecv := recv_append hbytes name ([more] ++ rest)
  rw [length_nameBytes] at hrecv
  have hone : ∀ (b : UInt8) (rest : List UInt8), recv 1 [0] ([b] ++ rest) = some ([b], rest) :=
    fun b rest => by simp [recv, overwrite]
  have hstream : answerBytes e answer pointers more ++ rest =
      addrinfoBytes e answer pointers ++ (answer.addr ++ ([namelen answer.canonname] ++
        (nameBytes answer.canonname ++ ([more] ++ rest)))) := by simp [answerBytes]
  rw [hstream, readAnswer, hhead]
  simp only [h0, h1, h2, h3, h4, recv_address, hone, getD_cons_zero, if_pos hname, hrecv, UInt32.ofNat_toNat]

theorem ampResolveGetList_suffix {e : Endian} {name stream : List UInt8}
    {addrlist answers : List Answer}
    (h : ampResolveGetList e turns item name addrlist stream = some answers) :
    addrlist <:+ answers := by
  induction turns generalizing item name stream addrlist with
  | zero => simp [ampResolveGetList] at h
  | succ turns ih =>
    rw [ampResolveGetList] at h
    cases hturn : readAnswer e item name stream with
    | closed =>
      rw [hturn] at h
      rw [← some.inj h]
    | stopped => simp [hturn] at h
    | answer answer more item name stream =>
      simp only [hturn] at h
      split_ifs at h
      · rw [← some.inj h]
        exact suffix_cons _ _
      · exact (suffix_cons _ _).trans (ih h)

theorem ampResolveGetList_not_fits (e : Endian) (turns : ℕ) {name : List UInt8}
    (hitem : item.length = 48) (hbuf : name.length = maxDnsNameLen) (addrlist : List Answer)
    (hlen : answer.addr.length < 2 ^ 32) (pointers : Vector UInt8 28) (more : UInt8)
    (hname : 1 < namelen answer.canonname) (hfit : ¬ Fits answer.canonname) (rest : List UInt8)
    (later : List Answer) : ampResolveGetList e (turns + 1) item name addrlist
        (answerBytes e answer pointers more ++ rest) ≠ some (later ++ answer :: addrlist) := by
  rw [ampResolveGetList, readAnswer_answerBytes e hitem name hlen pointers more hname]
  cases htext : readString (overwrite (nameBytes answer.canonname) name) with
  | none => simp
  | some text =>
    have hne : ({ answer with canonname := text } : Answer) ≠ answer := by
      intro heq
      have htext' : text = answer.canonname := congrArg Answer.canonname heq
      exact readString_ne_of_not_fits hbuf hfit (fun h => by simp [h] at hname) htext htext'
    have hsuffix : ¬ ({ answer with canonname := text } : Answer) :: addrlist <:+ later ++ answer :: addrlist := by
      intro hsuf
      have hsame := suffix_of_suffix_length_le hsuf (suffix_append later (answer :: addrlist)) (by simp)
      exact hne (cons.inj (hsame.eq_of_length (by simp))).1
    intro heq
    simp only at heq
    split_ifs at heq
    · exact hsuffix (some.inj heq ▸ suffix_rfl)
    · exact hsuffix (ampResolveGetList_suffix heq)

theorem one_lt_namelen (hpos : 1 ≤ name.length) (hfit : Fits name) : 1 < namelen name := by
  rw [Fits] at hfit
  rw [UInt8.lt_iff_toNat_lt, toNat_namelen]
  show 1 < (name.length + 1) % 256
  omega

theorem ampResolveGetList_fits (e : Endian) (turns : ℕ) (hitem : item.length = 48)
    (name : List UInt8) (addrlist : List Answer) (hlen : answer.addr.length < 2 ^ 32)
    (hnul : 0 ∉ answer.canonname) (pointers : Vector UInt8 28) (more : UInt8)
    (hpos : 1 ≤ answer.canonname.length) (hfit : Fits answer.canonname) (rest : List UInt8) :
    ampResolveGetList e (turns + 1) item name addrlist (answerBytes e answer pointers more ++ rest) =
      if more = 0 then some (answer :: addrlist)
      else ampResolveGetList e turns (addrinfoBytes e answer pointers) (overwrite (nameBytes answer.canonname) name)
        (answer :: addrlist) rest := by
  rw [ampResolveGetList, readAnswer_answerBytes e hitem name hlen pointers more
    (one_lt_namelen hpos hfit), readString_overwrite hnul hfit]

theorem ampResolveGetList_sendAnswers (e : Endian) {answers : List (Answer × Vector UInt8 28)}
    (hans : ∀ a ∈ answers, a.1.addr.length < 2 ^ 32 ∧ 0 ∉ a.1.canonname)
    (hturns : answers.length < turns) {name : List UInt8} (hitem : item.length = 48)
    (hbuf : name.length = maxDnsNameLen) (addrlist : List Answer) :
    (sendAnswers e answers).bind (ampResolveGetList e turns item name addrlist) =
        some ((answers.map Prod.fst).reverse ++ addrlist) ↔
      ∀ a ∈ answers, 1 ≤ a.1.canonname.length ∧ Fits a.1.canonname := by
  induction answers generalizing turns item name addrlist with
  | nil =>
    obtain ⟨turns, rfl⟩ := Nat.exists_eq_succ_of_ne_zero (Nat.ne_zero_of_lt hturns)
    simp [sendAnswers, ampResolveGetList, readAnswer, recv]
  | cons a answers ih =>
    obtain ⟨turns, rfl⟩ := Nat.exists_eq_succ_of_ne_zero (Nat.ne_zero_of_lt hturns)
    obtain ⟨answer, pointers⟩ := a
    obtain ⟨⟨hlen, hnul⟩, hrest⟩ := forall_mem_cons.mp hans
    have ih' := ih hrest (Nat.lt_of_succ_lt_succ hturns)
      (length_addrinfoBytes e answer pointers) (length_overwrite_nameBytes answer.canonname hbuf)
      (answer :: addrlist)
    rw [forall_mem_cons]
    by_cases hname : 1 < namelen answer.canonname
    · rw [sendAnswers, if_pos hname]
      cases hsend : sendAnswers e answers with
      | none =>
        have htail := ih'.not.mp (by simp [hsend])
        exact iff_of_false (by simp) fun h => htail h.2
      | some rest =>
        rw [hsend, bind_some] at ih'
        simp only [bind_some, map_cons, reverse_cons, append_assoc, singleton_append]
        by_cases hfit : Fits answer.canonname
        · have hpos : 1 ≤ answer.canonname.length := by
            by_contra hzero
            have hnil : answer.canonname = [] := eq_nil_of_length_eq_zero (by omega)
            rw [hnil] at hname
            exact absurd hname (by decide)
          rw [ampResolveGetList_fits e turns hitem name addrlist hlen hnul pointers _ hpos hfit]
          cases answers with
          | nil => simp [hpos, hfit]
          | cons b answers =>
            rw [← ih']
            simp [hpos, hfit]
        · have hcut := ampResolveGetList_not_fits e turns hitem hbuf addrlist hlen pointers
            (if answers.isEmpty then 0 else 1) hname hfit rest (answers.map Prod.fst).reverse
          exact iff_of_false hcut fun h => hfit h.1.2
    · have hbad : ¬ (1 ≤ answer.canonname.length ∧ Fits answer.canonname) := fun h =>
        hname (one_lt_namelen h.1 h.2)
      rw [sendAnswers, if_neg hname]
      simp [hbad]

/-- Unchanged exactly when the length of every name fits and no answer has an empty name. -/
theorem resolver_socket_round_trip (e : Endian) (dests : List ResolveDest)
    (hnul : ∀ d ∈ dests, 0 ∉ d.name) (answers : List (Answer × Vector UInt8 28))
    (hans : ∀ a ∈ answers, a.1.addr.length < 2 ^ 32 ∧ 0 ∉ a.1.canonname) (turns turns' : ℕ)
    (hturns : dests.length < turns) (hturns' : answers.length < turns')
    (info name item name' : List UInt8) (hinfo : info.length = 3)
    (hname : name.length = maxDnsNameLen) (hitem : item.length = 48)
    (hname' : name'.length = maxDnsNameLen) :
    (readQueries turns info name (sendQueries dests) = (dests.map query, .marker) ↔ ∀ d ∈ dests, Fits d.name) ∧
      ((sendAnswers e answers).bind (ampResolveGetList e turns' item name' []) = some (answers.map Prod.fst).reverse ↔
        ∀ a ∈ answers, 1 ≤ a.1.canonname.length ∧ Fits a.1.canonname) := by
  refine ⟨readQueries_sendQueries hnul hturns hinfo hname, ?_⟩
  have h := ampResolveGetList_sendAnswers e hans hturns' hitem hname' []
  rwa [append_nil] at h

theorem two_names_cross_the_socket : (readQueries 3 (replicate 3 0) (replicate 256 0)
        (sendQueries [⟨cstr "amp", .inet, 1⟩, ⟨cstr "a.example", .unspec, 0⟩]) =
      ([⟨cstr "amp", 2, 1⟩, ⟨cstr "a.example", 0, 0⟩], .marker)) ∧
    ((sendAnswers .little [(⟨0, 2, 1, 6, [2, 0, 0, 0, 10, 0, 0, 1], cstr "amp"⟩,
        Vector.replicate 28 7), (⟨0, 10, 1, 6, [], cstr "b"⟩, Vector.replicate 28 9)]).bind
        (ampResolveGetList .little 3 (replicate 48 0) (replicate 256 0) []) =
      some [⟨0, 10, 1, 6, [], cstr "b"⟩, ⟨0, 2, 1, 6, [2, 0, 0, 0, 10, 0, 0, 1], cstr "amp"⟩]) := by
  have h := resolver_socket_round_trip .little [⟨cstr "amp", .inet, 1⟩, ⟨cstr "a.example", .unspec, 0⟩] (by decide)
    [(⟨0, 2, 1, 6, [2, 0, 0, 0, 10, 0, 0, 1], cstr "amp"⟩, Vector.replicate 28 7),
      (⟨0, 10, 1, 6, [], cstr "b"⟩, Vector.replicate 28 9)] (by simp; decide)
    3 3 (by decide) (by decide) (replicate 3 0) (replicate 256 0)
    (replicate 48 0) (replicate 256 0) length_replicate
    length_replicate length_replicate length_replicate
  exact ⟨h.1.mpr (by decide), h.2.mpr (by simp [Fits]; decide)⟩

theorem name_of_255_bytes_ends_the_list : readQueries 3 (replicate 3 0) (replicate 256 0)
      (sendQueries [⟨replicate 255 97, .unspec, 0⟩, ⟨cstr "amp", .inet, 1⟩]) = ([], .marker) := by
  decide +kernel

end Amplet.ResolverSocket
