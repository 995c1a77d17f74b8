import Amplet.IcmpPackets

/-!
# The ICMP test

Embedding of `send_packet` and `receive_probe_callback` in `src/tests/icmp/icmp.c`.
Every reply that is accepted takes one off the counter, also a second reply to the same
probe and one with the number of destinations as its number. An error marks a probe as
answered and leaves the counter alone.
-/

namespace Amplet.IcmpTest
open Failing IcmpPackets InFlight ProbeTest ScheduleTime SocketAddress
open TracerouteProbe (Packet headerLen)

structure Sending where
  magic : UInt16
  delivery : Delivery

structure Received where
  packet : Packet
  bytes : ℕ
  now : TimeVal

section Callbacks

variable {count : ℕ}

def sendPacket (e : Endian) (r : Sending) (g : IcmpGlobals count) : Except Fault (IcmpGlobals count × Option (Fin count)) := do
  let i ← entryAt count g.index
  let info := { Info.zero with addr := some g.index, magic := r.magic }
  match g.sockets.select (g.dests i) with
  | none => .ok ((g.setInfo i info).next, none)
  | some sock => do
    let family := (g.dests i).elim 0 SockAddr.family
    let _ ← buildProbe e family g.options.packetSize.toNat g.index g.ident info.magic
    let info := { info with timeSent := r.delivery.time }
    if sock = 0 then .error .assertion
    else if r.delivery.whole then
      .ok (Globals.next { g.setInfo i info with outstanding := g.outstanding + 1 }, some i)
    else .ok ((g.setInfo i { info with reply := true, timeSent := ⟨0, 0⟩ }).next, none)

/-- The handler is selected by the version, a packet from the other socket has no IP header. -/
def dispatch (e : Endian) (r : Received) (g : IcmpGlobals count) : Except Fault (IcmpGlobals count × ℤ) :=
  if version r.packet 0 = 4 then processIpv4Packet e r.packet r.bytes r.now g
  else processIpv6Packet e r.packet r.bytes r.now g

def processReceived (e : Endian) (r : Received) (g : IcmpGlobals count) : Except Fault (IcmpGlobals count) := do
  let (g, _) ← dispatch e r g
  .ok g

def icmpCallbacks (e : Endian) (count : ℕ) : Callbacks Options Info Sending Received count where
  sendPacket := sendPacket e
  processReceived := processReceived e

end Callbacks

section Changes

variable {count : ℕ} {e : Endian} {p p' : Progress Options Info count} {g g' : IcmpGlobals count}
  {r : Received} {i j : ℕ}

theorem sendPacket_sends {r : Sending} {sent : Option (Fin count)}
    (h : sendPacket e r g = .ok (g', sent)) : Sends Info.reply g g' sent := by
  obtain ⟨i, hi, h⟩ := bind_eq_ok.mp h
  have hindex := entryAt_eq_ok hi
  dsimp only at h
  split at h
  · cases h
    exact ⟨i, _, hindex, .inr ⟨rfl, rfl⟩⟩
  · obtain ⟨probe, -, h⟩ := bind_eq_ok.mp h
    split_ifs at h
    · cases h
      refine ⟨i, _, hindex, .inl ⟨rfl, ?_, rfl⟩⟩
      rfl
    · cases h
      exact ⟨i, _, hindex, .inr ⟨rfl, rfl⟩⟩

def Answers (e : Endian) (r : Received) (g : IcmpGlobals count) (seq : ℕ) : Prop :=
  if version r.packet 0 = 4 then Answers4 e r.packet r.bytes g seq else Answers6 e r.packet r.bytes g seq

def Reports (e : Endian) (r : Received) (g : IcmpGlobals count) (seq : ℕ) : Prop :=
  version r.packet 0 = 4 ∧ Error4 e g.ident r.packet r.bytes ∧ quotedSeq r.packet = seq ∧ r.packet (headerLen r.packet 0) ≠ 5

theorem Answers.unique (hi : Answers e r g i) (hj : Answers e r g j) : i = j := by
  rw [Answers] at hi hj
  split_ifs at hi hj
  · exact hi.2.1.symm.trans hj.2.1
  · exact hi.2.1.symm.trans hj.2.1

theorem Answers.not_reports (hi : Answers e r g i) (hj : Reports e r g j) : False := by
  rw [Answers, if_pos hj.1] at hi
  exact hj.2.1.2.2.2.1 hi.1.2.2.1

inductive Effect (e : Endian) (r : Received) (g : IcmpGlobals count) : Change (Fin count) → Prop
  | idle (hanswers : ∀ seq ≤ count, ¬ Answers e r g seq) (hreports : ∀ seq < count, ¬ Reports e r g seq) :
    Effect e r g .idle
  | stray (h : Answers e r g count) : Effect e r g .stray
  | answered {i : Fin count} (h : Answers e r g i) : Effect e r g (.answered i)
  | released {i : Fin count} (h : Reports e r g i) : Effect e r g (.released i)

theorem replied_effect {seq : ℕ} {now : TimeVal} (hle : seq ≤ count) (h : Answers e r g seq) :
    ∃ c, Takes Info.reply c g (replied seq now g) ∧ Effect e r g c := by
  rcases hle.eq_or_lt with rfl | hlt
  · exact ⟨_, takes_stray le_rfl _, .stray h⟩
  · obtain ⟨i, rfl⟩ : ∃ i : Fin count, seq = i := ⟨⟨seq, hlt⟩, rfl⟩
    rw [replied, setEntry_val]
    exact ⟨_, takes_answered rfl, .answered h⟩

theorem reported_effect (hversion : version r.packet 0 = 4) (herror : Error4 e g.ident r.packet r.bytes) :
    ∃ c, Takes Info.reply c g (reported r.packet g) ∧ Effect e r g c := by
  have hidle (h : ∀ seq < count, ¬ Reports e r g seq) : Effect e r g .idle := by
    refine .idle (fun seq _ hseq => ?_) h
    rw [Answers, if_pos hversion] at hseq
    exact herror.2.2.2.1 hseq.1.2.2.1
  rcases lt_or_ge (quotedSeq r.packet) count with hlt | hle
  · obtain ⟨i, hi⟩ : ∃ i : Fin count, quotedSeq r.packet = i := ⟨⟨_, hlt⟩, rfl⟩
    rw [reported, hi, entry_val, setEntry_val]
    by_cases hredirect : r.packet (headerLen r.packet 0) = 5
    · refine ⟨_, takes_kept ?_, hidle fun j _ hj => hj.2.2.2 hredirect⟩
      simp [Info.recordError, hredirect]
    · refine ⟨_, takes_released ?_, .released ⟨hversion, herror, hi, hredirect⟩⟩
      simp [Info.recordError, hredirect]
  · exact ⟨_, takes_behind hle _, hidle fun j hj hreports => by have := hreports.2.2.1; omega⟩

theorem processReceived_effect (h : processReceived e r g = .ok g') : ∃ c, Takes Info.reply c g g' ∧ Effect e r g c := by
  obtain ⟨⟨g₁, result⟩, hprocess, h⟩ := bind_eq_ok.mp h
  cases h
  rw [dispatch] at hprocess
  by_cases hversion : version r.packet 0 = 4
  · rw [if_pos hversion] at hprocess
    have hanswers4 : ∀ i, Answers e r g i ↔ Answers4 e r.packet r.bytes g i := fun i => by
      rw [Answers, if_pos hversion]
    rcases processIpv4Packet_cases hprocess with
      ⟨rfl, -, hnone, hnoError⟩ | ⟨seq, hle, hseq, rfl, -⟩ | ⟨herror, rfl, -⟩
    · refine ⟨_, takes_idle _ _, .idle (fun seq hle => ?_) fun _ _ hreports => hnoError hreports.2.1⟩
      rw [hanswers4]
      exact hnone seq hle
    · exact replied_effect hle ((hanswers4 seq).mpr hseq)
    · exact reported_effect hversion herror
  · rw [if_neg hversion] at hprocess
    have hanswers6 : ∀ i, Answers e r g i ↔ Answers6 e r.packet r.bytes g i := fun i => by
      rw [Answers, if_neg hversion]
    rcases processIpv6Packet_cases hprocess with ⟨rfl, -, hnone⟩ | ⟨seq, hle, hseq, rfl, -⟩
    · refine ⟨_, takes_idle _ _, .idle (fun seq hle => ?_) fun _ _ hreports => hversion hreports.1⟩
      rw [hanswers6]
      exact hnone seq hle
    · exact replied_effect hle ((hanswers6 seq).mpr hseq)

/-- A reply is for a probe that waits for it, not for the entry behind the last one, and an error
is for a probe that does not. -/
def FirstAnswer (e : Endian) (p : Progress Options Info count) : Event Sending Received → Prop
  | .send _ => True
  | .receive none => True
  | .receive (some r) => ¬ Answers e r p.globals count ∧ ∀ i : Fin count,
      (Answers e r p.globals i → i ∈ p.sent ∧ (p.globals.info i).reply = false) ∧
        (Reports e r p.globals i → ¬ (i ∈ p.sent ∧ (p.globals.info i).reply = false))

theorem Effect.firstAnswer_iff {c : Change (Fin count)} (h : Effect e r p.globals c) :
    FirstAnswer e p (.receive (some r)) ↔ c.Fits (p.requests Info.reply) := by
  cases h with
  | idle hanswers hreports =>
    refine iff_of_true ⟨hanswers count le_rfl, fun i => ⟨fun hi => ?_, fun hi => ?_⟩⟩ trivial
    · exact absurd hi (hanswers i i.isLt.le)
    · exact absurd hi (hreports i i.isLt)
  | stray hcount => exact iff_of_false (fun hfirst => hfirst.1 hcount) id
  | @answered i hi =>
    rw [Change.Fits, mem_waiting]
    refine ⟨fun hfirst => (hfirst.2 i).1 hi, fun hwaiting => ⟨fun hcount => ?_, fun j => ⟨fun hj => ?_, fun hj => ?_⟩⟩⟩
    · exact i.isLt.ne (hi.unique hcount)
    · exact Fin.ext (hi.unique hj) ▸ hwaiting
    · exact (hi.not_reports hj).elim
  | @released i hi =>
    rw [Change.Fits, mem_waiting]
    refine ⟨fun hfirst => (hfirst.2 i).2 hi, fun hwaiting => ⟨fun hcount => ?_, fun j => ⟨fun hj => ?_, fun hj => ?_⟩⟩⟩
    · exact hcount.not_reports hi
    · exact (hj.not_reports hi).elim
    · exact Fin.ext (hi.2.2.1.symm.trans hj.2.2.1) ▸ hwaiting

end Changes

section Counting

variable {count : ℕ} {e : Endian} {p p' : Progress Options Info count}

structure Counted (p : Progress Options Info count) : Prop where
  outstanding : p.globals.outstanding = ({i ∈ p.sent | (p.globals.info i).reply = false} : Finset (Fin count)).card
  nonneg : 0 ≤ p.globals.outstanding
  stopped : p.globals.stopped = true ↔ p.globals.index = count ∧ ∀ i ∈ p.sent, (p.globals.info i).reply = true

theorem counted_iff (hcount : 0 < count) (hp : Orderly p) : Counted p ↔ (p.requests Info.reply).Accurate := by
  refine ⟨Counted.outstanding, fun haccurate => ?_⟩
  have hnonneg : 0 ≤ p.globals.outstanding := by
    have hcard : p.globals.outstanding = _ := haccurate
    omega
  refine ⟨haccurate, hnonneg, ?_⟩
  rw [← outstanding_eq_zero_iff haccurate]
  refine ⟨hp.done, fun hdone => ?_⟩
  by_contra hstopped
  exact hp.running hcount (Bool.eq_false_iff.mpr hstopped) hdone

theorem probes_counted_iff (e : Endian) (hcount : 0 < count) (hstart : Started p) (events : List (Event Sending Received)) :
    Always (Step (icmpCallbacks e count)) Counted p events ↔ Each (Step (icmpCallbacks e count)) (FirstAnswer e) p events := by
  refine always_counted_iff Orderly (fun _ hp => hp) (fun _ hp => counted_iff hcount hp) ?_
    (fun _ _ _ _ _ hp _ => hp) hstart.orderly hstart events
  intro p event p' _ hstep
  refine step_moves (fun _ => trivial) trivial (fun r g' sent => sendPacket_sends) (fun r g' h => ?_) hstep
  obtain ⟨c, htakes, heffect⟩ := processReceived_effect h
  exact ⟨c, htakes, heffect.firstAnswer_iff⟩

end Counting

section Instances

variable {count : ℕ} {e : Endian}

instance (r : Received) (g : IcmpGlobals count) (seq : ℕ) : Decidable (Answers e r g seq) :=
  inferInstanceAs (Decidable (if version r.packet 0 = 4 then Answers4 e r.packet r.bytes g seq
    else Answers6 e r.packet r.bytes g seq))

instance (r : Received) (g : IcmpGlobals count) (seq : ℕ) : Decidable (Reports e r g seq) :=
  inferInstanceAs (Decidable (_ ∧ _))

instance (p : Progress Options Info count) (event : Event Sending Received) : Decidable (FirstAnswer e p event) :=
  match event with
  | .send _ => inferInstanceAs (Decidable True)
  | .receive none => inferInstanceAs (Decidable True)
  | .receive (some r) => inferInstanceAs (Decidable (¬ Answers e r p.globals count ∧ ∀ i : Fin count,
      (Answers e r p.globals i → i ∈ p.sent ∧ (p.globals.info i).reply = false) ∧
        (Reports e r p.globals i → ¬ (i ∈ p.sent ∧ (p.globals.info i).reply = false))))

end Instances

def exampleStart (count : ℕ) : Progress Options Info count := ⟨exampleGlobals count, ∅⟩

theorem exampleStart_started (count : ℕ) : Started (exampleStart count) := ⟨rfl, rfl, rfl, rfl, rfl, rfl⟩

def exampleSend : Event Sending Received := .send ⟨0xabcd, true, ⟨10, 0⟩⟩

def exampleReply (seq : UInt16) : Event Sending Received :=
  .receive (some ⟨packetOf (ipHeader 30 ++ icmpHeader 0 0 0x1234 seq ++ [0xcd, 0xab]), 30, ⟨11, 0⟩⟩)

def exampleError (seq : UInt16) : Event Sending Received :=
  .receive (some ⟨packetOf (ipHeader 56 ++ icmpHeader 3 1 0 0 ++ ipHeader 84 ++ icmpHeader 8 0 0x1234 seq), 56, ⟨11, 0⟩⟩)

theorem probes_run_counted : Started (exampleStart 2) ∧ Always (Step (icmpCallbacks .little 2)) Counted (exampleStart 2)
      [exampleSend, exampleSend, exampleReply 1, exampleError 1, exampleReply 0] :=
  ⟨exampleStart_started 2, (probes_counted_iff .little (by decide) (exampleStart_started 2) _).mpr
    (each_of_holdsEach _ (by decide +kernel))⟩

theorem error_and_duplicate_miscounted :
    (Started (exampleStart 1) ∧ ¬ Always (Step (icmpCallbacks .little 1)) Counted (exampleStart 1)
        [exampleSend, exampleError 0]) ∧
      Started (exampleStart 2) ∧ ¬ Always (Step (icmpCallbacks .little 2)) Counted (exampleStart 2)
        [exampleSend, exampleSend, exampleReply 0, exampleReply 0] := by
  refine ⟨⟨exampleStart_started 1, fun h => ?_⟩, exampleStart_started 2, fun h => ?_⟩
  · have hany : (run (icmpCallbacks .little 1) (exampleStart 1) [exampleSend, exampleError 0]).any
        (fun p => decide (p.globals.index = 1 ∧ ∀ i ∈ p.sent, (p.globals.info i).reply = true) && !p.globals.stopped) = true := by
      decide +kernel
    obtain ⟨p, hrun, hp⟩ := (Option.any_eq_true _ _).mp hany
    rw [Bool.and_eq_true, decide_eq_true_iff] at hp
    have hstopped := (always_run _ h hrun).stopped.mpr hp.1
    rw [hstopped] at hp
    cases hp.2
  · have hany : (run (icmpCallbacks .little 2) (exampleStart 2) [exampleSend, exampleSend, exampleReply 0, exampleReply 0]).any
          (fun p => p.globals.stopped && decide (1 ∈ p.sent) && !(p.globals.info 1).reply) = true := by
      decide +kernel
    obtain ⟨p, hrun, hp⟩ := (Option.any_eq_true _ _).mp hany
    rw [Bool.and_eq_true, Bool.and_eq_true, decide_eq_true_iff] at hp
    have hreply := ((always_run _ h hrun).stopped.mp hp.1.1).2 1 hp.1.2
    rw [hreply] at hp
    cases hp.2

end Amplet.IcmpTest
