import Amplet.UdpstreamStream

/-!
# Packets that a udpstream test counts

What `receive_udp_stream` and then `report_stream` in
`src/tests/udpstream/udpstream_common.c` make of the packets that arrive. The receiver
reads as often as packets are expected. Of every index it keeps the delay of the packet
that was read last, and the report takes a delay of zero for a packet that was lost.
-/

namespace Amplet.UdpstreamArrivals
open List RunLength ScheduleTime UdpstreamStream
open UdpstreamReport (Direction Status Summary Item reportStream status timerisset timerisset_iff
  expand_lossPeriods packetsReceived_eq_total)

def taken : ℕ → List Arrival → List Datagram
  | 0, _ => []
  | n + 1, arrivals =>
    match getPacket udpstreamLossTimeout arrivals with
    | (none, _, rest) => taken n rest
    | (some d, _, rest) => d :: taken n rest

structure View where
  index : ℕ
  sent : TimeVal
  time : TimeVal

def View.delay (v : View) : TimeVal := timerSub v.time v.sent

def views (buffer : Buffer) : List Datagram → List View
  | [] => []
  | d :: rest =>
    if d.received.length = 0 then views buffer rest
    else
      let buffer := fill buffer d.received
      ⟨payloadIndex buffer, payloadTime buffer, d.time⟩ :: views buffer rest

def keep (count : ℕ) (times : ℕ → TimeVal) (v : View) : ℕ → TimeVal :=
  if v.index < count then Function.update times v.index v.delay else times

section Receiving

variable {options : Options} {count k n : ℕ} {times : ℕ → TimeVal}

theorem iterate_times (n : ℕ) (r : Receiver) : ((Receiver.next options)^[n] r).times =
      (views r.buffer (taken n r.arrivals)).foldl (keep options.packetCount.toNat) r.times := by
  induction n generalizing r with
  | zero => rfl
  | succ n ih =>
    rw [Function.iterate_succ_apply, ih, Receiver.next, taken]
    cases hget : getPacket udpstreamLossTimeout r.arrivals with
    | mk packet rest =>
      cases packet with
      | none => rfl
      | some d =>
        dsimp only
        rw [views]
        split_ifs with hempty
        · rfl
        · rw [record_arrivals, Receiver.record]
          dsimp only
          rw [foldl_cons, keep]
          split_ifs <;> rfl

theorem foldl_keep (vs : List View) (hk : k < count) : vs.foldl (keep count) times k =
      ((vs.filter (·.index = k)).getLast?.map View.delay).getD (times k) := by
  -- from the end of the list, as the last packet decides
  induction vs using reverseRecOn with
  | nil => rfl
  | append_singleton vs v ih =>
    rw [foldl_append, foldl_cons, foldl_nil, filter_append, keep]
    by_cases hv : v.index = k
    · subst hv
      simp [hk]
    · rw [filter_cons_of_neg (by simpa using hv), filter_nil, append_nil, ← ih]
      split_ifs
      · exact Function.update_of_ne (Ne.symm hv) ..
      · rfl

/-- Bears the time of its arrival, in either of two ways. -/
def Instant (sent time : TimeVal) : Prop :=
  time = sent ∨ time.sec = sent.sec + 1 ∧ sent.usec = time.usec + 1000000

instance (sent time : TimeVal) : Decidable (Instant sent time) := inferInstanceAs (Decidable (_ ∨ _))

theorem timerisset_timerSub (sent time : TimeVal) : timerisset (timerSub time sent) = true ↔ ¬Instant sent time := by
  rw [timerisset_iff, timerSub, Instant]
  cases sent
  cases time
  simp only [TimeVal.mk.injEq]
  split_ifs
  · dsimp only
    omega
  · dsimp only
    omega

end Receiving

section Counting

variable {options : Options} {stack : Buffer} {arrivals : List Arrival} {count k n : ℕ}

def Arrived (arrivals : List Arrival) (k : ℕ) : Prop := ∃ a ∈ arrivals, a.datagram.index = some k

instance (arrivals : List Arrival) : DecidablePred (Arrived arrivals) := fun k =>
  inferInstanceAs (Decidable (∃ a ∈ arrivals, a.datagram.index = some k))

/-- The last packet that is seen with the index does not bear the time of its arrival. -/
def Kept (count : ℕ) (stack : Buffer) (arrivals : List Arrival) (k : ℕ) : Prop :=
  ∃ v, ((views stack (taken count arrivals)).filter (·.index = k)).getLast? = some v ∧ ¬Instant v.sent v.time

def report (direction : Direction) (rtt : Option Summary) (options : Options) (stack : Buffer) (arrivals : List Arrival) : Item :=
  reportStream direction rtt (some (receiveUdpStream options stack (fun _ => ⟨0, 0⟩) arrivals).times) options

structure Counts (options : Options) (stack : Buffer) (arrivals : List Arrival) : Prop where
  status : ∀ direction rtt, ∀ k < options.packetCount.toNat,
    (expand (report direction rtt options stack arrivals).lossPeriods)[k]? = some .received ↔ Arrived arrivals k
  number : ∀ direction rtt, (report direction rtt options stack arrivals).packetsReceived =
    some ((Finset.range options.packetCount.toNat).filter (Arrived arrivals)).card

theorem status_eq_received {time : TimeVal} : status time = .received ↔ timerisset time = true := by
  rw [status]
  split_ifs with h <;> simp [h]

theorem status_times (hk : k < options.packetCount.toNat) :
    status ((receiveUdpStream options stack (fun _ => ⟨0, 0⟩) arrivals).times k) = .received ↔
      Kept options.packetCount.toNat stack arrivals k := by
  rw [status_eq_received, receiveUdpStream, iterate_times, foldl_keep _ hk, Kept]
  cases ((views stack (taken options.packetCount.toNat arrivals)).filter (·.index = k)).getLast? with
  | none => simp [timerisset]
  | some v => simp [View.delay, timerisset_timerSub]

theorem card_received (f : ℕ → Status) (n : ℕ) :
    ((range n).map f).count .received = ((Finset.range n).filter fun k => f k = .received).card := by
  rw [← Nat.count_eq_card_filter_range, Nat.count, count, countP_map]
  exact countP_congr fun k _ => by simp

theorem counts_iff_kept : Counts options stack arrivals ↔
      ∀ k < options.packetCount.toNat, Arrived arrivals k ↔ Kept options.packetCount.toNat stack arrivals k := by
  have hstatus : ∀ direction rtt, ∀ k < options.packetCount.toNat,
      (expand (report direction rtt options stack arrivals).lossPeriods)[k]? = some .received ↔
        Kept options.packetCount.toNat stack arrivals k := by
    intro direction rtt k hk
    rw [report, expand_lossPeriods, getElem?_map, getElem?_range hk, Option.map_some, Option.some.injEq, status_times hk]
  constructor
  · intro h k hk
    rw [← h.status .clientToServer none k hk, hstatus _ _ k hk]
  · intro h
    refine ⟨fun direction rtt k hk => by rw [h k hk, hstatus _ _ k hk], fun direction rtt => ?_⟩
    rw [report, packetsReceived_eq_total, total_eq_count, expand_lossPeriods, card_received]
    refine congrArg some (congrArg Finset.card (Finset.filter_congr fun k hk => ?_))
    have hk' := Finset.mem_range.mp hk
    rw [status_times hk', h k hk']

end Counting

section Taking

variable {before after arrivals : List Arrival} {n : ℕ}

theorem taken_append (h : ∀ a ∈ before, a.gap ≤ udpstreamLossTimeout) (n : ℕ) :
    taken (before.length + n) (before ++ after) = before.map Arrival.datagram ++ taken n after := by
  induction before with
  | nil => simp
  | cons a before ih =>
    have hrest := ih fun b hb => h b (mem_cons_of_mem _ hb)
    rw [length_cons, Nat.add_right_comm, cons_append, taken, getPacket, if_pos (h a (mem_cons_self ..))]
    dsimp only
    rw [hrest]
    rfl

theorem taken_of_le (h : ∀ a ∈ before, a.gap ≤ udpstreamLossTimeout) (hn : n ≤ before.length) :
    taken n (before ++ after) = (before.map Arrival.datagram).take n := by
  induction before generalizing n with
  | nil =>
    obtain rfl : n = 0 := Nat.le_zero.mp hn
    rfl
  | cons a before ih =>
    cases n with
    | zero => rfl
    | succ n =>
      have hrest := ih (fun b hb => h b (mem_cons_of_mem _ hb)) (Nat.le_of_succ_le_succ hn)
      rw [cons_append, taken, getPacket, if_pos (h a (mem_cons_self ..))]
      dsimp only
      rw [hrest]
      rfl

theorem taken_isPrefix (n : ℕ) (arrivals : List Arrival) : taken n arrivals <+: arrivals.map Arrival.datagram := by
  induction n generalizing arrivals with
  | zero => exact nil_prefix
  | succ n ih =>
    cases arrivals with
    | nil => exact ih []
    | cons a rest =>
      rw [taken, getPacket]
      split_ifs with hgap
      · exact (prefix_cons_inj _).mpr (ih rest)
      · have hlater := ih ({ a with gap := a.gap - udpstreamLossTimeout } :: rest)
        rwa [map_cons] at hlater ⊢

theorem arrived_of_taken {d : Datagram} {k : ℕ} (hd : d ∈ taken n arrivals) (hk : d.index = some k) :
    Arrived arrivals k := by
  obtain ⟨a, ha, rfl⟩ := mem_map.mp ((taken_isPrefix n arrivals).subset hd)
  exact ⟨a, ha, hk⟩

end Taking

section Whole

variable {options : Options} {stack : Buffer} {arrivals before after : List Arrival} {count k n : ℕ}

def Datagram.view (d : Datagram) : View := ⟨payloadIndex (IcmpPackets.packetOf d.data), d.sent, d.time⟩

theorem views_whole {packets : List Datagram} (h : ∀ d ∈ packets, d.index ≠ none) (buffer : Buffer) :
    views buffer packets = packets.map Datagram.view := by
  induction packets generalizing buffer with
  | nil => rfl
  | cons d packets ih =>
    obtain ⟨k, hk⟩ := Option.ne_none_iff_exists'.mp (h d (mem_cons_self ..))
    have hlength := (Datagram.index_eq_some.mp hk).1
    rw [views, if_neg (received_ne_nil hk)]
    dsimp only
    rw [(payload_fill hlength).1, (payload_fill hlength).2, ih fun e he => h e (mem_cons_of_mem _ he)]
    rfl

def lastTaken (count : ℕ) (arrivals : List Arrival) (k : ℕ) : Option Datagram :=
  ((taken count arrivals).filter (·.index = some k)).getLast?

theorem kept_whole (h : ∀ a ∈ arrivals, a.datagram.index ≠ none) :
    Kept count stack arrivals k ↔ ∃ d, lastTaken count arrivals k = some d ∧ ¬Instant d.sent d.time := by
  have hwhole : ∀ d ∈ taken count arrivals, d.index ≠ none := by
    intro d hd
    obtain ⟨a, ha, rfl⟩ := mem_map.mp ((taken_isPrefix count arrivals).subset hd)
    exact h a ha
  have hfilter : (taken count arrivals).filter ((fun v => decide (v.index = k)) ∘ Datagram.view) =
      (taken count arrivals).filter (·.index = some k) := by
    refine filter_congr fun d hd => ?_
    obtain ⟨j, hj⟩ := Option.ne_none_iff_exists'.mp (hwhole d hd)
    have hindex := (Datagram.index_eq_some.mp hj).2
    simp [hj, Datagram.view, hindex]
  rw [Kept, views_whole hwhole, filter_map, hfilter, getLast?_map, lastTaken]
  simp only [Option.map_eq_some_iff, exists_exists_and_eq_and]
  rfl

theorem mem_of_lastTaken {d : Datagram} (h : lastTaken count arrivals k = some d) :
    d ∈ taken count arrivals ∧ d.index = some k := by
  simpa using mem_of_getLast? h

theorem exists_lastTaken {d : Datagram} (hd : d ∈ taken count arrivals) (hk : d.index = some k) :
    ∃ e, lastTaken count arrivals k = some e := by
  refine Option.ne_none_iff_exists'.mp fun hnone => ?_
  have hmem : d ∈ (taken count arrivals).filter (·.index = some k) := by
    simp [hd, hk]
  rw [getLast?_eq_none_iff.mp hnone] at hmem
  cases hmem

/-- Packets up to the last one with a new index below the count, each in time, and those after it. -/
structure Timely (count : ℕ) (before after : List Arrival) : Prop where
  gap : ∀ a ∈ before, a.gap < udpstreamLossTimeout
  last : ∀ a ∈ before.getLast?, ∃ k < count, a.datagram.index = some k ∧ ¬Arrived before.dropLast k
  later : ∀ k < count, Arrived after k → Arrived before k

theorem Timely.arrived (h : Timely count before after) (hk : k < count) (hk' : Arrived (before ++ after) k) :
    Arrived before k := by
  obtain ⟨a, ha, hindex⟩ := hk'
  rcases mem_append.mp ha with ha | ha
  · exact ⟨a, ha, hindex⟩
  · exact h.later k hk ⟨a, ha, hindex⟩

theorem Timely.length_le (h : Timely count before after)
    (htaken : ∀ k < count, Arrived (before ++ after) k → ∃ d ∈ taken count (before ++ after), d.index = some k) :
    before.length ≤ count := by
  by_contra! hlt
  rcases eq_nil_or_concat' before with rfl | ⟨init, a, rfl⟩
  · simp at hlt
  obtain ⟨k, hk, hindex, hnew⟩ := h.last a (by simp)
  obtain ⟨d, hd, hdk⟩ := htaken k hk ⟨a, by simp, hindex⟩
  rw [taken_of_le (fun b hb => (h.gap b hb).le) hlt.le, map_append, take_append_of_le_length
    (by simpa using Nat.le_of_lt_succ (by simpa using hlt))] at hd
  obtain ⟨b, hb, rfl⟩ := mem_map.mp (mem_of_mem_take hd)
  exact hnew ⟨b, by simpa using hb, hdk⟩

theorem kept_whole_iff (h : Timely count before after) (hwhole : ∀ a ∈ before ++ after, a.datagram.index ≠ none) :
    (∀ k < count, Arrived (before ++ after) k ↔ Kept count stack (before ++ after) k) ↔ before.length ≤ count ∧
        ∀ k < count, ∀ d ∈ lastTaken count (before ++ after) k, ¬Instant d.sent d.time := by
  simp only [kept_whole hwhole]
  constructor
  · intro hkept
    refine ⟨h.length_le fun k hk harrived => ?_, fun k hk d hd => ?_⟩
    · obtain ⟨d, hd, -⟩ := (hkept k hk).mp harrived
      exact ⟨d, mem_of_lastTaken hd⟩
    · obtain ⟨hmem, hindex⟩ := mem_of_lastTaken hd
      obtain ⟨e, he, hinstant⟩ := (hkept k hk).mp (arrived_of_taken hmem hindex)
      rw [hd] at he
      cases he
      exact hinstant
  · rintro ⟨hlength, hinstant⟩ k hk
    constructor
    · intro harrived
      obtain ⟨a, ha, hindex⟩ := h.arrived hk harrived
      have htaken : a.datagram ∈ taken count (before ++ after) := by
        rw [← Nat.add_sub_cancel' hlength, taken_append fun b hb => (h.gap b hb).le]
        exact mem_append_left _ (mem_map_of_mem ha)
      obtain ⟨d, hd⟩ := exists_lastTaken htaken hindex
      exact ⟨d, hd, hinstant k hk d hd⟩
    · rintro ⟨d, hd, -⟩
      obtain ⟨hmem, hindex⟩ := mem_of_lastTaken hd
      exact arrived_of_taken hmem hindex

/-- Exactly if the last packet of every index that arrived, and of no other one, is seen with
another time than that of its arrival. -/
theorem arrivals_counted_iff (h : Timely options.packetCount.toNat before after) : (Counts options stack (before ++ after) ↔
      ∀ k < options.packetCount.toNat, Arrived (before ++ after) k ↔ Kept options.packetCount.toNat stack (before ++ after) k) ∧
    ((∀ a ∈ before ++ after, a.datagram.index ≠ none) → (Counts options stack (before ++ after) ↔
        before.length ≤ options.packetCount.toNat ∧ ∀ k < options.packetCount.toNat,
          ∀ d ∈ lastTaken options.packetCount.toNat (before ++ after) k, ¬Instant d.sent d.time)) :=
  ⟨counts_iff_kept, fun hwhole => counts_iff_kept.trans (kept_whole_iff h hwhole)⟩

end Whole

def packetAt (index : ℕ) (usec : ℤ) : Arrival := ⟨1000, payload sizeofPayload ⟨0, 0⟩ index, ⟨0, usec⟩⟩

theorem arrivals_counted_reordered : Counts ⟨8826, 100, 4, 20000, 10, 1, 0⟩ (fun _ => 0)
      ([packetAt 2 500, packetAt 0 600, packetAt 9 700, packetAt 1 800] ++ [packetAt 2 900]) :=
  ((arrivals_counted_iff ⟨by decide, by decide, by decide⟩).2 (by decide)).mpr (by decide)

theorem arrivals_miscounted :
    let options : Options := ⟨8826, 100, 2, 20000, 10, 1, 0⟩
    let twice := [packetAt 0 500, packetAt 0 600, packetAt 1 700]
    let instant := [packetAt 0 500, packetAt 1 0]
    Timely 2 twice [] ∧ ¬Counts options (fun _ => 0) twice ∧
      (report .clientToServer none options (fun _ => 0) twice).packetsReceived = some 1 ∧
      Timely 2 instant [] ∧ ¬Counts options (fun _ => 0) instant ∧
      (report .clientToServer none options (fun _ => 0) instant).packetsReceived = some 1 := by
  intro options twice instant
  have htwice : (report .clientToServer none options (fun _ => 0) twice).packetsReceived = some 1 := by decide
  have hinstant : (report .clientToServer none options (fun _ => 0) instant).packetsReceived = some 1 := by decide
  have hmiscounted : ∀ arrivals, (report .clientToServer none options (fun _ => 0) arrivals).packetsReceived = some 1 →
      ((Finset.range 2).filter (Arrived arrivals)).card = 2 → ¬Counts options (fun _ => 0) arrivals := by
    intro arrivals hreport hcard h
    have hnumber := h.number .clientToServer none
    rw [hreport, show options.packetCount.toNat = 2 from rfl, hcard] at hnumber
    cases hnumber
  exact ⟨⟨by decide, by decide, by decide⟩, hmiscounted twice htwice (by decide), htwice,
    ⟨by decide, by decide, by decide⟩, hmiscounted instant hinstant (by decide), hinstant⟩

end Amplet.UdpstreamArrivals
