import Amplet.DnsResponse

/-!
# The DNS test

Embedding of `send_packet` and `receive_probe_callback` in `src/tests/dns/dns.c`. The
entry of a response is found from its id, a sum cut to 16 bits. The counter of
outstanding queries goes down with every packet that is taken for a response, also for a
query that is answered or was not sent.
-/

namespace Amplet.DnsTest
open Bytes DnsNames DnsQuery DnsResponse Failing FixedBuffer InFlight ProbeTest ScheduleTime
open SocketAddress

structure Sending where
  name : NameBuffer
  delivery : Delivery

structure Received where
  packet : CStr
  now : TimeVal
  names : ℕ → NameBuffer

section Callbacks

variable {count : ℕ}

/-- The assertion is the one of `delay_send_packet` about its socket. -/
def sendPacket (r : Sending) (g : DnsGlobals count) : Except Fault (DnsGlobals count × Option (Fin count)) := do
  let i ← entryAt count g.index
  let info := { g.info i with addr := some g.index }
  match g.sockets.select (g.dests i) with
  | none => .ok ((g.setInfo i info).next, none)
  | some sock =>
    match createDnsQuery r.name (queryIdent g.ident g.index) g.options with
    | none => .error .memory
    | some (_, queryLength) =>
      let info := { info with queryLength := queryLength, timeSent := r.delivery.time }
      if sock = 0 then .error .assertion
      else if r.delivery.whole then
        .ok (Globals.next { g.setInfo i info with outstanding := g.outstanding + 1 }, some i)
      else .ok ((g.setInfo i { info with reply := true, timeSent := ⟨0, 0⟩ }).next, none)

def dnsCallbacks (e : Endian) (fuel count : ℕ) : Callbacks Options Info Sending Received count where
  sendPacket := sendPacket
  processReceived r g := processPacket e fuel r.names r.packet r.now g

end Callbacks

section Matching

variable {count : ℕ} {ident : UInt16}

structure AttributedTo (ident : UInt16) {count : ℕ} (packet : CStr) (i : Fin count) : Prop where
  index : ∃ recvIdent, field packet 0 = .ok recvIdent ∧ responseIndex ident count recvIdent = some i.val
  recorded : ∀ (e : Endian) (fuel : ℕ) (names : ℕ → NameBuffer) (now : TimeVal)
    (g g' : DnsGlobals count), g.ident = ident → processPacket e fuel names packet now g = .ok g' →
      (g'.info i).reply = true ∧ ∀ j ≠ i, g'.info j = g.info j

def IndexBelow (ident : UInt16) (count : ℕ) (packet : CStr) : Prop := ∀ recvIdent index,
  field packet 0 = .ok recvIdent → responseIndex ident count recvIdent = some index → index < count

variable {packet : CStr}

theorem attributedTo_iff {i : Fin count} {recvIdent : ℕ} (hid : field packet 0 = .ok recvIdent) :
    AttributedTo ident packet i ↔ recvIdent = ident.toNat + i := by
  constructor
  · rintro ⟨⟨recvIdent', hid', hindex⟩, -⟩
    obtain rfl := Except.ok.inj (hid.symm.trans hid')
    exact (responseIndex_eq_some hindex).1
  · rintro rfl
    refine ⟨⟨_, hid, responseIndex_of_le i.isLt.le⟩, ?_⟩
    rintro e fuel names now g g' rfl h
    rcases processPacket_cases h with ⟨-, hnone⟩ | ⟨index, -, x, hindex, hx, rfl⟩
    · exact absurd hid (hnone i i.isLt.le)
    · obtain rfl : index = i := Nat.add_left_cancel (Except.ok.inj (hindex.symm.trans hid))
      rw [setEntry_val]
      exact ⟨by simpa [Globals.setInfo] using hx, fun k hk => Function.update_of_ne hk _ _⟩

theorem indexBelow_iff : IndexBelow ident count packet ↔ field packet 0 ≠ .ok (ident.toNat + count) := by
  constructor
  · intro hbelow hid
    exact absurd (hbelow _ _ hid (responseIndex_of_le le_rfl)) (lt_irrefl _)
  · intro hne recvIdent index hid hindex
    obtain ⟨rfl, hle⟩ := responseIndex_eq_some hindex
    exact lt_of_le_of_ne hle fun heq => hne (heq ▸ hid)

theorem response_matching_iff (ident : UInt16) (i : Fin count) {name : NameBuffer} {opt : Options}
    {query packet : CStr} {len : ℕ} (hquery : createDnsQuery name (queryIdent ident i) opt = some (query, len))
    (hpacket : packet.take 2 = query.take 2) (other : CStr) :
    (AttributedTo ident packet i ∧ IndexBelow ident count other) ↔
      ident.toNat + i < 65536 ∧ field other 0 ≠ .ok (ident.toNat + count) := by
  have hid : field packet 0 = .ok ((ident.toNat + i) % 65536) := by
    rw [← toNat_queryIdent]
    refine field_htons [] (packet.drop 2) ?_ rfl
    rw [← createDnsQuery_id hquery, ← hpacket, List.nil_append, List.take_append_drop]
  rw [attributedTo_iff hid, indexBelow_iff]
  have hwire : (ident.toNat + i) % 65536 = ident.toNat + i ↔ ident.toNat + i < 65536 := by omega
  rw [hwire]

end Matching

theorem example_query (name : NameBuffer) (ident : UInt16) : ∃ query,
    createDnsQuery name ident exampleOptions = some (query, query.length) := by
  have hall : ∀ l ∈ [cstr "www", cstr "example", cstr "org"], 0 < l.length ∧ l.length ≤ 63 ∧ dot ∉ l ∧ 0 ∉ l := by decide
  have hlabels : ∀ l ∈ [cstr "www", cstr "example", cstr "org"], PlainLabel l := fun l hl =>
    ⟨(hall l hl).1, (hall l hl).2.1, (hall l hl).2.2.1, (hall l hl).2.2.2⟩
  exact ⟨_, createDnsQuery_eq hlabels (by decide) name ident (by decide)⟩

def emptyResponse (id : UInt16) : CStr :=
  htons id ++ [0x80, 0] ++ htons 1 ++ htons 0 ++ htons 0 ++ htons 0 ++ 0 :: (htons 1 ++ htons 1)

theorem second_query_matched :
    AttributedTo 0x1234 (emptyResponse 0x1235) (1 : Fin 2) ∧ IndexBelow 0x1234 2 (emptyResponse 0x1235) := by
  obtain ⟨query, hquery⟩ := example_query (Buffer.fill maxDnsNameLen 0) (queryIdent 0x1234 1)
  have hid : (emptyResponse 0x1235).take 2 = query.take 2 := (createDnsQuery_id hquery).symm
  exact (response_matching_iff 0x1234 (1 : Fin 2) hquery hid (emptyResponse 0x1235)).mpr ⟨by decide, by decide⟩

theorem ids_mismatched : (∃ query len, createDnsQuery (Buffer.fill maxDnsNameLen 0) (queryIdent 0xffff 1) exampleOptions =
        some (query, len) ∧ (emptyResponse 0).take 2 = query.take 2) ∧
      ¬ AttributedTo 0xffff (emptyResponse 0) (1 : Fin 2) ∧
      ¬ IndexBelow 0x1234 2 (emptyResponse 0x1236) := by
  refine ⟨?_, ?_, ?_⟩
  · obtain ⟨query, hquery⟩ := example_query (Buffer.fill maxDnsNameLen 0) (queryIdent 0xffff 1)
    exact ⟨query, query.length, hquery, (createDnsQuery_id hquery).symm⟩
  · have hid : field (emptyResponse 0) 0 = .ok 0 := rfl
    rw [attributedTo_iff hid]
    decide
  · rw [indexBelow_iff]
    decide

section Counting

variable {count fuel : ℕ} {e : Endian} {p p' : Progress Options Info count}
  {g g' : DnsGlobals count} {sent : Option (Fin count)}

theorem sendPacket_sends (hfresh : ∀ i : Fin count, g.index ≤ i → (g.info i).reply = false)
    {r : Sending} (h : sendPacket r g = .ok (g', sent)) : Sends Info.reply g g' sent := by
  obtain ⟨i, hi, h⟩ := bind_eq_ok.mp h
  have hindex := entryAt_eq_ok hi
  dsimp only at h
  split at h
  · cases h
    exact ⟨i, _, hindex, .inr ⟨rfl, rfl⟩⟩
  · split at h
    · cases h
    · split_ifs at h
      · cases h
        refine ⟨i, _, hindex, .inl ⟨rfl, ?_, rfl⟩⟩
        exact hfresh i hindex.ge
      · cases h
        exact ⟨i, _, hindex, .inr ⟨rfl, rfl⟩⟩

theorem processPacket_takes {names : ℕ → NameBuffer} {now : TimeVal} (h : processPacket e fuel names packet now g = .ok g') :
    ((∀ index ≤ count, field packet 0 ≠ .ok (g.ident.toNat + index)) ∧ g' = g) ∨
      (field packet 0 = .ok (g.ident.toNat + count) ∧ Takes Info.reply .stray g g') ∨
        ∃ i : Fin count, field packet 0 = .ok (g.ident.toNat + i) ∧ Takes Info.reply (.answered i) g g' ∧
          ∀ j ≠ i, g'.info j = g.info j := by
  rcases processPacket_cases h with ⟨rfl, hnone⟩ | ⟨index, hle, x, hid, hx, rfl⟩
  · exact .inl ⟨hnone, rfl⟩
  rcases hle.eq_or_lt with rfl | hlt
  · exact .inr (.inl ⟨hid, takes_stray le_rfl x⟩)
  · obtain ⟨i, rfl⟩ : ∃ i : Fin count, index = i := ⟨⟨index, hlt⟩, rfl⟩
    rw [setEntry_val]
    exact .inr (.inr ⟨i, hid, takes_answered hx, fun j hj => Function.update_of_ne hj _ _⟩)

/-- A packet has the id of a query that waits for its response, or an id that is rejected. -/
def FirstResponse (p : Progress Options Info count) : Event Sending Received → Prop
  | .send _ => True
  | .receive none => True
  | .receive (some r) => field r.packet 0 ≠ .ok (p.globals.ident.toNat + count) ∧
      ∀ i : Fin count, field r.packet 0 = .ok (p.globals.ident.toNat + i) → i ∈ p.sent ∧ (p.globals.info i).reply = false

/-- The event loop is told to end only when every query that was sent has its response. -/
structure Counted (p : Progress Options Info count) : Prop where
  outstanding : p.globals.outstanding = ({i ∈ p.sent | (p.globals.info i).reply = false} : Finset (Fin count)).card
  stopped : p.globals.stopped = true → ∀ i ∈ p.sent, (p.globals.info i).reply = true

structure Regular (p : Progress Options Info count) : Prop extends Orderly p where
  unmarked : ∀ i : Fin count, p.globals.index ≤ i → (p.globals.info i).reply = false

theorem counted_iff (hp : Orderly p) : Counted p ↔ (p.requests Info.reply).Accurate :=
  ⟨Counted.outstanding, fun haccurate =>
    ⟨haccurate, fun hstopped => (outstanding_eq_zero_iff haccurate).mp (hp.done hstopped).2⟩⟩

theorem firstResponse_iff {r : Received} {i : Fin count} (hid : field r.packet 0 = .ok (p.globals.ident.toNat + i)) :
    FirstResponse p (.receive (some r)) ↔ i ∈ (p.requests Info.reply).waiting := by
  rw [mem_waiting]
  have hindex {k : ℕ} (hk : field r.packet 0 = .ok (p.globals.ident.toNat + k)) : i.val = k :=
    Nat.add_left_cancel (Except.ok.inj (hid.symm.trans hk))
  refine ⟨fun hfirst => hfirst.2 i hid, fun hwaiting => ⟨fun hcount => ?_, fun j hj => ?_⟩⟩
  · exact i.isLt.ne (hindex hcount)
  · exact Fin.ext (hindex hj) ▸ hwaiting

theorem Regular.moves {event : Event Sending Received} (hp : Regular p) (h : Step (dnsCallbacks e fuel count) p event p') :
    ∃ c, Moves Info.reply p c p' ∧ (FirstResponse p event ↔ c.Fits (p.requests Info.reply)) := by
  refine step_moves (fun _ => trivial) trivial (fun r g' sent => sendPacket_sends hp.unmarked) (fun r g' hprocess => ?_) h
  rcases processPacket_takes hprocess with ⟨hnone, rfl⟩ | ⟨hid, htakes⟩ | ⟨i, hid, htakes, -⟩
  · refine ⟨_, takes_idle _ _, iff_of_true ⟨hnone count le_rfl, fun i hid => ?_⟩ trivial⟩
    exact absurd hid (hnone i i.isLt.le)
  · exact ⟨_, htakes, iff_of_false (fun hfirst => hfirst.1 hid) id⟩
  · exact ⟨_, htakes, firstResponse_iff hid⟩

theorem Regular.unmarked_step {event : Event Sending Received} (hp : Regular p)
    (h : Step (dnsCallbacks e fuel count) p event p') (hfirst : FirstResponse p event) :
    ∀ i : Fin count, p'.globals.index ≤ i → (p'.globals.info i).reply = false := by
  obtain ⟨-, -, h⟩ := h
  match event, hfirst, h with
  | .send r, _, h =>
    obtain ⟨⟨g, sent⟩, hsend, h⟩ := bind_eq_ok.mp h
    cases h
    have hsends := sendPacket_sends hp.unmarked hsend
    intro j hj
    rw [hsends.index] at hj
    rw [hsends.info_of_lt hj]
    exact hp.unmarked j (by omega)
  | .receive none, _, h =>
    cases h
    simpa using hp.unmarked
  | .receive (some r), hfirst, h =>
    obtain ⟨g, hprocess, h⟩ := bind_eq_ok.mp h
    cases h
    rcases processPacket_takes hprocess with ⟨-, rfl⟩ | ⟨hid, -⟩ | ⟨i, hid, htakes, hrest⟩
    · simpa using hp.unmarked
    · exact absurd hid hfirst.1
    · intro j hj
      rw [checkDone_index, htakes.index] at hj
      -- the entry that is marked is the one of a query that was sent
      have hsent := hp.sent i (hfirst.2 i hid).1
      rw [checkDone_info, hrest j (fun hji => by omega)]
      exact hp.unmarked j hj

instance (p : Progress Options Info count) (event : Event Sending Received) : Decidable (FirstResponse p event) :=
  match event with
  | .send _ => inferInstanceAs (Decidable True)
  | .receive none => inferInstanceAs (Decidable True)
  | .receive (some _) => inferInstanceAs (Decidable (_ ≠ _ ∧ ∀ _ : Fin count, _ = _ → _))

end Counting

def exampleStart : Progress Options Info 2 where
  globals :=
    { options := exampleOptions
      sockets := ⟨3, 4⟩
      dests := fun _ => some (.inet 0xc0000201)
      info := fun _ => Info.zero
      behind := fun _ => Info.zero
      ident := 0x1234
      index := 0
      outstanding := 0
      nextpackettimer := true
      losstimer := false
      stopped := false }
  sent := ∅

theorem exampleStart_started : Started exampleStart := ⟨rfl, rfl, rfl, rfl, rfl, rfl⟩

def exampleSend : Event Sending Received := .send ⟨Buffer.fill maxDnsNameLen 0, true, ⟨10, 0⟩⟩

def exampleReceive (id : UInt16) : Event Sending Received :=
  .receive (some ⟨emptyResponse id, ⟨11, 0⟩, fun _ => Buffer.fill maxDnsNameLen 0⟩)

end Amplet.DnsTest
