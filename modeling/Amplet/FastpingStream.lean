import Amplet.FastpingPackets
import Amplet.UdpstreamReport

/-!
# The stream of the fastping test

Embedding of the loop of `send_icmp_stream` in `src/tests/fastping/fastping.c`, with the
round trip times that `report_destination` collects. Each turn has its own `select`,
clock and packet. The wire and the log of the replies are kept for the statements only.
-/

namespace Amplet.FastpingStream
open List Bytes FastpingPackets IcmpProbes ScheduleTime SignedWords SocketAddress
open TracerouteProbe (Packet word)
open UdpstreamReport (timerisset)

structure Setup where
  e : Endian
  dest : Dest
  ident : UInt16
  count : ℕ
  rate : ℕ
  size : UInt16
  count_le : count ≤ maximumFastpingPacketCount
  size_ok : minimumFastpingPacketSize ≤ size.toNat

structure Info where
  timeSent : TimeVal
  timeReceived : TimeVal

structure Stream where
  sent : ℕ
  received : ℕ
  timing : ℕ → Info
  nextPacket : TimeVal
  stopTime : TimeVal
  lossTimeout : TimeVal
  /-- the packet to send next, and its length -/
  packet : CStr × ℕ
  wire : List (CStr × ℕ)

structure Reply where
  packet : Packet
  bytes : ℕ
  sender : CStr
  time : TimeVal

inductive Select
  | failed
  | interrupted
  | ready (readable writable : Bool)

structure Turn where
  select : Select
  now : TimeVal
  sentAt : TimeVal
  stopAt : TimeVal
  arrival : Option Reply

inductive Outcome
  | next (s : Stream)
  | stop (s : Stream)
  | failed

def interpacketGap (rate : ℕ) : TimeVal :=
  ⟨if rate ≤ 1 then 1 else 0, if 1 < rate then 1000000 / rate else 0⟩

def probe (t : Setup) (k : ℕ) : CStr × ℕ :=
  match buildPacket t.e t.dest.family t.size (UInt16.ofNat k) t.ident (UInt64.ofNat k) with
  | .ok packet => packet
  | .error _ => ([], 0)

def start (t : Setup) (now : TimeVal) : Stream where
  sent := 0
  received := 0
  timing _ := ⟨⟨0, 0⟩, ⟨0, 0⟩⟩
  nextPacket := timerAdd now (interpacketGap t.rate)
  stopTime := ⟨0, 0⟩
  lossTimeout := ⟨0, 0⟩
  packet := probe t 0
  wire := []

def sendNext (t : Setup) (s : Stream) (sentAt : TimeVal) : Stream :=
  { s with
    timing := Function.update s.timing s.sent { s.timing s.sent with timeSent := sentAt }
    nextPacket := timerAdd s.nextPacket (interpacketGap t.rate)
    sent := s.sent + 1
    packet := ((probe t (s.sent + 1)).1, s.packet.2)
    wire := s.wire ++ [s.packet] }

/-- Waiting starts when all packets are sent, and is over after three seconds. -/
def checkLoss (t : Setup) (s : Stream) (i : Turn) : Option Stream :=
  if t.count ≤ s.sent then
    if s.stopTime.sec = 0 ∧ s.stopTime.usec = 0 then
      some { s with stopTime := i.stopAt, lossTimeout := timerAdd i.stopAt ⟨3, 0⟩ }
    else if !timerLt i.now s.lossTimeout then none
    else some s
  else some s

def receive (t : Setup) (s : Stream) (r : Reply) : Outcome :=
  let sequence := extractData t.e t.dest r.packet r.bytes t.ident r.sender
  if 0 ≤ sequence ∧ sequence < s.sent then
    let info := s.timing sequence.toNat
    if !timerisset info.timeReceived then
      let s := { s with
        timing := Function.update s.timing sequence.toNat { info with timeReceived := r.time }
        received := s.received + 1 }
      if t.count ≤ s.received then .stop s else .next s
    else .next s
  else .next s

def turn (t : Setup) (s : Stream) (i : Turn) : Outcome × Option Reply :=
  match i.select with
  | .failed => (.failed, none)
  | .interrupted => (.next s, none)
  | .ready readable writable =>
    let due := s.sent < t.count && !timerLt i.now s.nextPacket
    if due && !writable then (.next s, none)
    else
      let s := if due then sendNext t s i.sentAt else s
      match checkLoss t s i with
      | none => (.stop s, none)
      | some s =>
        match readable, i.arrival with
        | true, some r => (receive t s r, some r)
        | _, _ => (.next s, none)

def Outcome.stream : Outcome → Option Stream
  | .next s | .stop s => some s
  | .failed => none

/-- The reply to packet `k`, a reply to a packet that primed the path, or no reply to this test.
-/
def Genuine (t : Setup) (sent : ℕ) (r : Reply) : Option ℕ → Prop
  | some k => k < sent ∧ timerisset r.time = true ∧
      Arrives t.dest.family 5 (probe t k).1 (probe t k).2 t.dest r.sender r.packet r.bytes
  | none => (∃ primer len,
      buildPacket t.e t.dest.family t.size 65535 t.ident 0 = .ok (primer, len) ∧
        Arrives t.dest.family 5 primer len t.dest r.sender r.packet r.bytes) ∨
      r.packet (icmpOffset t.dest.family r.packet) ≠ (if t.dest.family = afInet then 0 else 129) ∨
        word r.packet (icmpOffset t.dest.family r.packet + 4) ≠ t.ident.toNat

def entries (entry : Option ℕ) (read : Option Reply) : List (ℕ × TimeVal) :=
  match entry, read with
  | some k, some r => [(k, r.time)]
  | _, _ => []

inductive Reach (t : Setup) : Outcome → List (ℕ × TimeVal) → Prop
  | start (now : TimeVal) : Reach t (.next (start t now)) []
  | turn {s : Stream} {log : List (ℕ × TimeVal)} {i : Turn} {k : Option ℕ}
      (h : Reach t (.next s) log) (hloop : s.sent < t.count ∨ s.received < t.count)
      (hread : ∀ r ∈ (turn t s i).2, ∀ s' ∈ (turn t s i).1.stream, Genuine t s'.sent r k) :
      Reach t (turn t s i).1 (log ++ entries k (turn t s i).2)

def firstReply (log : List (ℕ × TimeVal)) (k : ℕ) : TimeVal :=
  ((log.find? (·.1 = k)).map Prod.snd).getD ⟨0, 0⟩

structure Sound (t : Setup) (s : Stream) (log : List (ℕ × TimeVal)) : Prop where
  sent_le : s.sent ≤ t.count
  packet : s.packet = probe t s.sent
  wire : s.wire = (range s.sent).map (probe t)
  timing : ∀ k, (s.timing k).timeReceived = firstReply log k
  logged : ∀ x ∈ log, x.1 < s.sent ∧ timerisset x.2 = true
  received : s.received = (log.map Prod.fst).toFinset.card

section Steps

variable {t : Setup} {s s' : Stream} {log : List (ℕ × TimeVal)} {k n : ℕ} {r : Reply}

theorem buildPacket_probe (t : Setup) (k : ℕ) :
    buildPacket t.e t.dest.family t.size (UInt16.ofNat k) t.ident (UInt64.ofNat k) = .ok (probe t k) := by
  obtain ⟨packet, len, h⟩ := buildPacket_ok t.e t.dest.family (UInt16.ofNat k) t.ident (UInt64.ofNat k) t.size_ok
  rw [probe, h]

theorem length_probe (t : Setup) (j k : ℕ) : (probe t j).2 = (probe t k).2 :=
  (buildPacket_eq_ok (buildPacket_probe t j)).2.1.trans (buildPacket_eq_ok (buildPacket_probe t k)).2.1.symm

theorem Genuine.extracted (hk : k < maximumFastpingPacketCount) (h : Genuine t n r (some k)) :
    extractData t.e t.dest r.packet r.bytes t.ident r.sender = k :=
  (recovers_of_offset (fun _ => rfl) hk).recovered _ _ _ _ _ _ (buildPacket_probe t k) h.2.2

theorem Genuine.ignored (h : Genuine t n r none) : extractData t.e t.dest r.packet r.bytes t.ident r.sender = -1 := by
  have hrecovers : Recovers t.e t.dest.family 5 t.size t.ident 0 :=
    recovers_of_offset (fun _ => rfl) (by decide)
  rcases h with ⟨primer, len, hbuild, harrives⟩ | hother
  · exact hrecovers.primed _ _ _ _ _ _ hbuild harrives
  · exact extractData_foreign rfl hother

theorem find?_of_mem (hk : k ∈ log.map Prod.fst) : ∃ x ∈ log, log.find? (·.1 = k) = some x := by
  cases hfind : log.find? (·.1 = k) with
  | none =>
    obtain ⟨x, hx, hxk⟩ := mem_map.mp hk
    exact absurd (decide_eq_true hxk) (find?_eq_none.mp hfind x hx)
  | some x => exact ⟨x, mem_of_find?_eq_some hfind, rfl⟩

theorem find?_of_notMem (hk : k ∉ log.map Prod.fst) : log.find? (·.1 = k) = none :=
  find?_eq_none.mpr fun x hx hxk => hk (mem_map.mpr ⟨x, hx, of_decide_eq_true hxk⟩)

theorem timerisset_firstReply (h : Sound t s log) : timerisset (firstReply log k) = true ↔ k ∈ log.map Prod.fst := by
  by_cases hk : k ∈ log.map Prod.fst
  · obtain ⟨x, hx, hfind⟩ := find?_of_mem hk
    rw [firstReply, hfind]
    exact iff_of_true (h.logged x hx).2 hk
  · rw [firstReply, find?_of_notMem hk]
    exact iff_of_false (by decide) hk

theorem firstReply_append {x : ℕ × TimeVal} : firstReply (log ++ [x]) k =
    if k ∉ log.map Prod.fst ∧ x.1 = k then x.2 else firstReply log k := by
  rw [firstReply, firstReply, find?_append]
  by_cases hk : k ∈ log.map Prod.fst
  · obtain ⟨y, -, hfind⟩ := find?_of_mem hk
    rw [hfind, if_neg fun h => h.1 hk]
    rfl
  · rw [find?_of_notMem hk]
    by_cases hx : x.1 = k <;> simp [hx, hk]

theorem sound_start (t : Setup) (now : TimeVal) : Sound t (start t now) [] :=
  ⟨Nat.zero_le _, rfl, rfl, fun _ => rfl, by simp, rfl⟩

theorem sound_sendNext (h : Sound t s log) (hsent : s.sent < t.count) (sentAt : TimeVal) : Sound t (sendNext t s sentAt) log where
  sent_le := hsent
  packet := by
    simp only [sendNext, h.packet, length_probe t s.sent (s.sent + 1)]
  wire := by
    simp only [sendNext, h.wire, h.packet, range_succ, map_append, map_singleton]
  timing k := by
    rw [← h.timing k]
    by_cases hk : k = s.sent
    · simp only [sendNext, hk, Function.update_self]
    · simp only [sendNext, Function.update_of_ne hk]
  logged x hx := ⟨(h.logged x hx).1.trans (Nat.lt_succ_self _), (h.logged x hx).2⟩
  received := h.received

theorem sound_checkLoss {i : Turn} (h : Sound t s log) (hcheck : checkLoss t s i = some s') : Sound t s' log := by
  rw [checkLoss] at hcheck
  split_ifs at hcheck <;> obtain rfl := Option.some.inj hcheck
  · exact ⟨h.sent_le, h.packet, h.wire, h.timing, h.logged, h.received⟩
  · exact h
  · exact h

theorem card_append (log : List (ℕ × TimeVal)) (x : ℕ × TimeVal) :
    ((log ++ [x]).map Prod.fst).toFinset = insert x.1 (log.map Prod.fst).toFinset := by
  ext j
  simp

section

variable {time : TimeVal} (h : Sound t s log) (hk : k < s.sent) (htime : timerisset time = true)
include h hk htime

theorem sound_repeated (hmem : k ∈ log.map Prod.fst) : Sound t s (log ++ [(k, time)]) where
  sent_le := h.sent_le
  packet := h.packet
  wire := h.wire
  timing j := by
    rw [firstReply_append, if_neg (by rintro ⟨hj, rfl⟩; exact hj hmem), h.timing]
  logged := forall_mem_append.mpr ⟨h.logged, by simpa using ⟨hk, htime⟩⟩
  received := by
    rw [card_append, Finset.insert_eq_of_mem (by simpa using hmem), h.received]

theorem sound_first (hmem : k ∉ log.map Prod.fst) : Sound t { s with
      timing := Function.update s.timing k { s.timing k with timeReceived := time }
      received := s.received + 1 } (log ++ [(k, time)]) where
  sent_le := h.sent_le
  packet := h.packet
  wire := h.wire
  timing j := by
    rw [firstReply_append]
    by_cases hj : j = k
    · subst hj
      rw [if_pos ⟨hmem, rfl⟩]
      simp only [Function.update_self]
    · simp only [Function.update_of_ne hj, h.timing, if_neg fun hx : _ ∧ k = j => hj hx.2.symm]
  logged := forall_mem_append.mpr ⟨h.logged, by simpa using ⟨hk, htime⟩⟩
  received := by
    rw [card_append, Finset.card_insert_of_notMem (by simpa using hmem), h.received]

end

theorem receive_sent (t : Setup) (s : Stream) (r : Reply) : ∃ s', (receive t s r).stream = some s' ∧ s'.sent = s.sent := by
  rw [receive]
  dsimp only
  split_ifs <;> exact ⟨_, rfl, rfl⟩

theorem sound_receive {entry : Option ℕ} (h : Sound t s log) (hgenuine : Genuine t s.sent r entry)
    (hreceive : (receive t s r).stream = some s') : Sound t s' (log ++ entries entry (some r)) := by
  rw [receive] at hreceive
  dsimp only at hreceive
  cases entry with
  | none =>
    rw [hgenuine.ignored, if_neg (by omega)] at hreceive
    cases hreceive
    exact (append_nil log).symm ▸ h
  | some k =>
    have hk : k < s.sent := hgenuine.1
    rw [hgenuine.extracted (hk.trans_le (h.sent_le.trans t.count_le)), if_pos (by omega), Int.toNat_natCast, h.timing] at hreceive
    by_cases hmem : k ∈ log.map Prod.fst
    · rw [(timerisset_firstReply h).mpr hmem] at hreceive
      cases hreceive
      exact sound_repeated h hk hgenuine.2.1 hmem
    · rw [Bool.eq_false_iff.mpr fun hset => hmem ((timerisset_firstReply h).mp hset), Bool.not_false, if_pos rfl] at hreceive
      have hfirst := sound_first h hk hgenuine.2.1 hmem
      split_ifs at hreceive <;> exact Option.some.inj hreceive ▸ hfirst

theorem turn_cases (t : Setup) (s : Stream) (i : Turn) : turn t s i = (.failed, none) ∨
      ∃ s₁, (s₁ = s ∨ s.sent < t.count ∧ s₁ = sendNext t s i.sentAt) ∧
        (turn t s i = (.next s₁, none) ∨ turn t s i = (.stop s₁, none) ∨ ∃ s₂, checkLoss t s₁ i = some s₂ ∧
            (turn t s i = (.next s₂, none) ∨ ∃ r, turn t s i = (receive t s₂ r, some r))) := by
  rw [turn]
  split
  · exact Or.inl rfl
  · exact Or.inr ⟨s, Or.inl rfl, Or.inl rfl⟩
  next readable writable _ =>
    right
    dsimp only
    obtain ⟨s₁, hs₁⟩ : ∃ s₁, s₁ = if s.sent < t.count && !timerLt i.now s.nextPacket then
      sendNext t s i.sentAt else s := ⟨_, rfl⟩
    rw [← hs₁]
    split
    · exact ⟨s, Or.inl rfl, Or.inl rfl⟩
    refine ⟨s₁, ?_, Or.inr ?_⟩
    · split_ifs at hs₁ with hdue
      · exact Or.inr ⟨by simp_all, hs₁⟩
      · exact Or.inl hs₁
    · split
      · exact Or.inl rfl
      next s₂ hcheck =>
        refine Or.inr ⟨s₂, hcheck, ?_⟩
        split
        · exact Or.inr ⟨_, rfl⟩
        · exact Or.inl rfl

theorem sound_turn {i : Turn} {entry : Option ℕ} (h : Sound t s log)
    (hread : ∀ r ∈ (turn t s i).2, ∀ s' ∈ (turn t s i).1.stream, Genuine t s'.sent r entry)
    (hturn : (turn t s i).1.stream = some s') : Sound t s' (log ++ entries entry (turn t s i).2) := by
  have hquiet : ∀ {s₁}, Sound t s₁ log → Sound t s₁ (log ++ entries entry none) := fun h₁ => by
    cases entry <;> exact (append_nil log).symm ▸ h₁
  rcases turn_cases t s i with heq | ⟨s₁, hs₁, hcases⟩
  · rw [heq] at hturn
    cases hturn
  have h₁ : Sound t s₁ log := by
    rcases hs₁ with rfl | ⟨hsent, rfl⟩
    · exact h
    · exact sound_sendNext h hsent _
  rcases hcases with heq | heq | ⟨s₂, hcheck, heq | ⟨r, heq⟩⟩ <;> rw [heq] at hread hturn ⊢
  · exact Option.some.inj hturn ▸ hquiet h₁
  · exact Option.some.inj hturn ▸ hquiet h₁
  · exact Option.some.inj hturn ▸ hquiet (sound_checkLoss h₁ hcheck)
  · obtain ⟨s₃, hs₃, hsent⟩ := receive_sent t s₂ r
    exact sound_receive (sound_checkLoss h₁ hcheck) (hsent ▸ hread r rfl s₃ hs₃) hturn

theorem Reach.sound {o : Outcome} (h : Reach t o log) (hs : o.stream = some s) : Sound t s log := by
  induction h generalizing s with
  | start now => exact Option.some.inj hs ▸ sound_start t now
  | turn _ _ hread ih => exact sound_turn (ih rfl) hread hs

/-- All packets are sent and less than `count` replies counted, at a time before the stream gives up. -/
structure Waiting (t : Setup) (now : TimeVal) (received : ℕ) (s : Stream) : Prop where
  sent : s.sent = t.count
  received : s.received ≤ received
  stopTime : s.stopTime.sec ≠ 0
  lossTimeout : timerLt now s.lossTimeout = true

theorem Waiting.receive {now : TimeVal} (h : Waiting t now n s) (hn : n + 1 < t.count) (r : Reply) :
    ∃ s', receive t s r = .next s' ∧ Waiting t now (n + 1) s' := by
  have hreceived := h.received
  rw [FastpingStream.receive]
  dsimp only
  split_ifs
  · omega
  · exact ⟨_, rfl, h.sent, Nat.succ_le_succ hreceived, h.stopTime, h.lossTimeout⟩
  · exact ⟨s, rfl, h.sent, by omega, h.stopTime, h.lossTimeout⟩
  · exact ⟨s, rfl, h.sent, by omega, h.stopTime, h.lossTimeout⟩

theorem reach_reply {now : TimeVal} (h : Reach t (.next s) log) (hwaiting : Waiting t now n s) (hn : n + 1 < t.count)
    (hgenuine : Genuine t t.count r (some k)) :
    ∃ s', Reach t (.next s') (log ++ [(k, r.time)]) ∧ Waiting t now (n + 1) s' := by
  obtain ⟨s', hs', hwaiting'⟩ := hwaiting.receive hn r
  have hturn : turn t s ⟨.ready true true, now, now, now, some r⟩ = (.next s', some r) := by
    simp [turn, checkLoss, hwaiting.sent, hwaiting.stopTime, hwaiting.lossTimeout, hs']
  have hopen : s.received < t.count := by have := hwaiting.received; omega
  have hstep := Reach.turn (i := ⟨.ready true true, now, now, now, some r⟩) (k := some k) h (Or.inr hopen) (by
    rw [hturn]
    intro r' hr' s'' hs''
    cases hr'
    cases hs''
    exact hwaiting'.sent ▸ hgenuine)
  rw [hturn] at hstep
  exact ⟨s', hstep, hwaiting'⟩

end Steps

/-- The round trip times that `report_destination` collects, in microseconds. -/
def roundTrips (t : Setup) (s : Stream) : List ℤ :=
  (range t.count).filterMap fun k =>
    if timerisset (s.timing k).timeReceived then
      some (int32 (timerSub (s.timing k).timeReceived (s.timing k).timeSent).us)
    else none

theorem length_roundTrips {t : Setup} {s : Stream} {log : List (ℕ × TimeVal)} (h : Sound t s log) :
    (roundTrips t s).length = s.received := by
  have hset : (log.map Prod.fst).toFinset = ((range t.count).filter fun k =>
      timerisset (s.timing k).timeReceived).toFinset := by
    ext k
    rw [mem_toFinset, mem_toFinset, mem_filter, mem_range, h.timing, timerisset_firstReply h]
    refine ⟨fun hk => ⟨?_, hk⟩, And.right⟩
    obtain ⟨x, hx, rfl⟩ := mem_map.mp hk
    exact (h.logged x hx).1.trans_le h.sent_le
  rw [roundTrips, length_filterMap_eq_countP, h.received, hset,
    toFinset_card_of_nodup (nodup_range.filter _), ← countP_eq_length_filter]
  refine countP_congr fun k _ => ?_
  split_ifs with hk <;> simp [hk]

/-- Over every run, with packets lost, repeated, delayed and reordered and other packets among
them. -/
theorem replies_counted_once {t : Setup} {o : Outcome} {log : List (ℕ × TimeVal)} (h : Reach t o log)
    {s : Stream} (hs : o.stream = some s) :
    s.wire = (range s.sent).map (probe t) ∧ s.sent ≤ t.count ∧ (∀ k, (s.timing k).timeReceived = firstReply log k) ∧
      s.received = (log.map Prod.fst).toFinset.card ∧ s.received ≤ s.sent ∧
      (roundTrips t s).length = s.received := by
  have hsound := h.sound hs
  have hle : s.received ≤ s.sent := by
    rw [hsound.received, ← Finset.card_range s.sent]
    refine Finset.card_le_card fun k hk => ?_
    obtain ⟨x, hx, rfl⟩ := mem_map.mp (mem_toFinset.mp hk)
    exact Finset.mem_range.mpr (hsound.logged x hx).1
  exact ⟨hsound.wire, hsound.sent_le, hsound.timing, hsound.received, hle, length_roundTrips hsound⟩

theorem sixtyfour_ok : minimumFastpingPacketSize ≤ (64 : UInt16).toNat := by decide

theorem four_ok : 4 ≤ maximumFastpingPacketCount := by decide

/-- Four packets, one a second. -/
def pingSetup : Setup := ⟨.little, ⟨afInet, []⟩, 0x1234, 4, 1, 64, four_ok, sixtyfour_ok⟩

def pingReply (k : ℕ) : Reply :=
  ⟨optionsReply 5 (probe pingSetup k).1, min responseBufferLen (5 * 4 + (probe pingSetup k).2), [], ⟨5, k⟩⟩

theorem pingReply_genuine {k : ℕ} (hk : k < 4) : Genuine pingSetup 4 (pingReply k) (some k) :=
  ⟨hk, rfl, optionsReply_arrives (by omega) (buildPacket_probe pingSetup k)⟩

def sendAt (sec : ℤ) : Turn := ⟨.ready false true, ⟨sec, 0⟩, ⟨sec, 0⟩, ⟨sec, 0⟩, none⟩

theorem reach_sent : ∃ s, Reach pingSetup (.next s) [] ∧ Waiting pingSetup ⟨5, 0⟩ 0 s := by
  have hsend : ∀ (sec : ℤ) {s s' : Stream}, Reach pingSetup (.next s) [] → s.sent < 4 →
      turn pingSetup s (sendAt sec) = (.next s', none) → Reach pingSetup (.next s') [] := by
    intro sec s s' h hsent hturn
    have hstep := Reach.turn (i := sendAt sec) (k := none) h (Or.inl hsent) (by rw [hturn]; intro r hr; cases hr)
    rwa [hturn] at hstep
  have hone := hsend 1 (.start ⟨0, 0⟩) (by decide) rfl
  have htwo := hsend 2 hone (by decide) rfl
  have hthree := hsend 3 htwo (by decide) rfl
  exact ⟨_, hsend 4 hthree (by decide) rfl, rfl, le_refl 0, by decide, rfl⟩

/-- Packets 1 and 3 are lost, and packet 2 is answered twice and before packet 0. -/
theorem repeated_reply_counted_once : ∃ o log s, Reach pingSetup o log ∧ o.stream = some s ∧
    log.map Prod.fst = [2, 0, 2] ∧ s.received = 2 := by
  obtain ⟨s, hs, hwaiting⟩ := reach_sent
  obtain ⟨s₁, h₁, hwaiting₁⟩ := reach_reply hs hwaiting (by decide) (pingReply_genuine (k := 2) (by decide))
  obtain ⟨s₂, h₂, hwaiting₂⟩ := reach_reply h₁ hwaiting₁ (by decide) (pingReply_genuine (k := 0) (by decide))
  obtain ⟨s₃, h₃, -⟩ := reach_reply h₂ hwaiting₂ (by decide) (pingReply_genuine (k := 2) (by decide))
  exact ⟨_, _, s₃, h₃, rfl, rfl, (replies_counted_once h₃ rfl).2.2.2.1⟩

end Amplet.FastpingStream
