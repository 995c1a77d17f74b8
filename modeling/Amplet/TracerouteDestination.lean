import Amplet.TracerouteReplies

/-!
# Port unreachables that are not from the destination

What `process_packet` makes of a port unreachable, by the address it is from, which is
compared in its first 0 bits: a comparison of the families.
-/

namespace Amplet.TracerouteDestination
open Failing SocketAddress TracerouteProbe TracerouteSound

def Rejected (e : Endian) (a : Answer) (now : ℤ) (d : Dest) : Prop :=
  ∃ d' m, processReply e a now d = .ok (d', m) ∧ d'.errType = uint8 a.type ∧
    d'.errCode = uint8 a.code ∧ ∀ i, (d'.hop i).addr = (d.hop i).addr

theorem compareAddresses_zero (e : Endian) (a b : SockAddr) : compareAddresses e a b 0 = 0 ↔ a.family = b.family := by
  rw [compareAddresses.eq_def]
  by_cases hfamily : a.family = b.family
  · rw [if_neg (not_not.mpr hfamily), if_pos rfl]
    exact iff_of_true rfl hfamily
  · rw [if_pos hfamily]
    refine iff_of_false ?_ hfamily
    split_ifs <;> decide

section Fields

variable {d : Dest}

theorem setHop_addr {f : Hop → Hop} (h : ∀ hop, (f hop).addr = hop.addr) (i j : Fin 30) :
    ((d.setHop i f).hop j).addr = (d.hop j).addr := by
  by_cases hji : j = i
  · subst hji
    simp only [Dest.setHop, Function.update_self, h]
  · simp only [Dest.setHop, Function.update_of_ne hji]

structure SameErrors (d d' : Dest) : Prop where
  errType : d'.errType = d.errType
  errCode : d'.errCode = d.errCode
  hop : d'.hop = d.hop

theorem reprobe_sameErrors (d : Dest) : SameErrors d (Dest.reprobe d).1 := by
  rw [Dest.reprobe]
  split_ifs
  · exact ⟨rfl, rfl, rfl⟩
  · exact ⟨rfl, rfl, rfl⟩

theorem endForward_sameErrors (d : Dest) : SameErrors d (endForward d).1 :=
  let h := reprobe_sameErrors _
  ⟨h.errType, h.errCode, h.hop⟩

theorem endOfPath_errType {a : Answer} (h : a.terminal ≠ 2) : (endOfPath a d).1.errType = d.errType := by
  refine (reprobe_sameErrors _).errType.trans ?_
  rw [if_neg h, if_neg h]
  split_ifs
  · rfl
  · rfl

end Fields

section Port

variable {e : Endian} {a : Answer} {now ttl firstTtl : ℤ} {d d' : Dest} {m : Move} {address : SockAddr}

theorem unexpectedError_port (hport : a.terminal = 1) : unexpectedError a.source a.type = false := by
  simp only [Answer.terminal, terminalError] at hport
  cases hsource : a.source with
  | inet x =>
    have htype : a.type = 3 := by
      by_contra hne
      simp only [hsource, hne, false_and, if_false] at hport
      split_ifs at hport <;> omega
    simp [unexpectedError, htype]
  | inet6 x =>
    have htype : a.type = 1 := by
      by_contra hne
      simp only [hsource, hne, false_and, if_false] at hport
      split_ifs at hport <;> omega
    simp [unexpectedError, htype]
  | other family h => rfl

theorem unexpected_port (hport : a.terminal = 1) (haddr : d.addr = some address) :
    a.unexpected e d = true ↔ a.source.family ≠ address.family := by
  rw [Answer.unexpected, unexpectedError_port hport, Bool.false_or, haddr]
  simp only [hport, decide_true, Bool.true_and, decide_eq_true_eq, ne_eq, compareAddresses_zero]
  exact not_congr eq_comm

def timed (now ttl : ℤ) (i : Fin 30) (d : Dest) : Dest :=
  Dest.setHop { d with firstResponse := if d.firstResponse = 0 then int8 ttl else d.firstResponse } i
    fun hop => { hop with delay := hop.replyDelay now }

theorem timed_addr (i j : Fin 30) : ((timed now ttl i d).hop j).addr = (d.hop j).addr := by
  rw [timed, setHop_addr]
  exact fun _ => rfl

theorem recordReply_hop {i : Fin 30} (hi : hopIndex ttl = .ok i) : recordReply e a now ttl d =
      if a.unexpected e d then unexpectedReply a (timed now ttl i d)
      else expectedReply a ttl (timed now ttl i d) := by
  rw [recordReply, hi, ok_bind]
  rfl

theorem recordReply_of_unexpected (now : ℤ) {i : Fin 30} (hport : a.terminal = 1)
    (hunexpected : a.unexpected e d = true) (hi : hopIndex ttl = .ok i) :
    ∃ d' m, recordReply e a now ttl d = .ok (d', m) ∧ d'.errType = uint8 a.type ∧
      d'.errCode = uint8 a.code ∧ ∀ j, (d'.hop j).addr = (d.hop j).addr := by
  rw [recordReply_hop hi, if_pos hunexpected, unexpectedReply, if_neg (by rw [hport]; decide)]
  let failed : Dest := { timed now ttl i d with errType := uint8 a.type, errCode := uint8 a.code }
  have hsame := endForward_sameErrors failed
  refine ⟨(endForward failed).1, (endForward failed).2, rfl, hsame.errType, hsame.errCode, fun j => ?_⟩
  rw [congrFun hsame.hop j]
  exact timed_addr i j

theorem recordReply_of_expected (hport : a.terminal = 1) (hexpected : ¬a.unexpected e d = true)
    (h : recordReply e a now ttl d = .ok (d', m)) : d'.errType = d.errType := by
  cases hi : hopIndex ttl with
  | error fault =>
    rw [recordReply, hi] at h
    cases h
  | ok i =>
    rw [recordReply_hop hi, if_neg hexpected, expectedReply, hi, ok_bind] at h
    dsimp only at h
    split_ifs at h with hlast hend
    · cases h
      rfl
    · have hfirst : (endOfPath a _).1 = d' := congrArg Prod.fst (Except.ok.inj h)
      rw [← hfirst]
      exact endOfPath_errType (by rw [hport]; decide)
    · exact absurd (.inl (by rw [hport]; decide)) hend
    · exact absurd (.inl (by rw [hport]; decide)) hend

theorem processReply_of_expected (hport : a.terminal = 1) (hexpected : ¬a.unexpected e d = true)
    (h : processReply e a now d = .ok (d', m)) : d'.errType = d.errType := by
  simp only [processReply] at h
  split_ifs at h with hfirst hrange
  · cases h
    rfl
  · cases hi : hopIndex (d.firstTtl - a.embeddedTtl + 1) with
    | error fault =>
      rw [hi] at h
      cases h
    | ok i =>
      cases hj : hopIndex d.firstTtl with
      | error fault =>
        rw [hi, hj] at h
        cases h
      | ok j =>
        simp only [hi, hj, ok_bind] at h
        exact recordReply_of_expected (d := Dest.setHop { d with ttl := _ } i _) hport hexpected h
  · exact recordReply_of_expected hport hexpected h

def Placed (a : Answer) (ttl firstTtl : ℤ) : Prop :=
  ttl = firstTtl → 1 ≤ firstTtl - a.embeddedTtl + 1 ∧ firstTtl - a.embeddedTtl + 1 ≤ 30

theorem processReply_of_not_placed (hport : a.terminal = 1) (hplaced : ¬Placed a d.ttl d.firstTtl)
    (h : processReply e a now d = .ok (d', m)) : d'.errType = d.errType := by
  rw [Placed, Classical.not_imp] at hplaced
  simp only [processReply] at h
  rw [if_pos ⟨by rw [hport]; decide, hplaced.1⟩] at h
  split_ifs at h with hrange
  · cases h
    rfl
  · -- only the place in front of the first hop is left
    have hzero : d.firstTtl - a.embeddedTtl + 1 = 0 := by
      have hplace := hplaced.2
      simp only [maxHopsInPath] at hrange
      omega
    rw [hzero] at h
    cases h

theorem rejected_of_placed (hport : a.terminal = 1) (hunexpected : a.unexpected e d = true)
    (hplaced : Placed a d.ttl d.firstTtl) (httl : 1 ≤ d.ttl ∧ d.ttl ≤ 30) : Rejected e a now d := by
  unfold Rejected
  simp only [processReply]
  by_cases hfirst : d.ttl = d.firstTtl
  · obtain ⟨hlow, hhigh⟩ := hplaced hfirst
    obtain ⟨i, hi, -⟩ := hopIndex_eq hlow hhigh
    obtain ⟨j, hj, -⟩ := hopIndex_eq (hfirst ▸ httl.1) (hfirst ▸ httl.2)
    rw [if_pos ⟨by rw [hport]; decide, hfirst⟩, if_neg (by simp only [maxHopsInPath]; omega), hi, ok_bind, hj, ok_bind]
    obtain ⟨d', m, hreply, htype, hcode, hhop⟩ :=
      recordReply_of_unexpected now (d := Dest.setHop { d with ttl := int8 (d.firstTtl - a.embeddedTtl + 1) } i fun hop =>
          { hop with timeSent := (d.hop j).timeSent }) hport hunexpected hi
    refine ⟨d', m, hreply, htype, hcode, fun k => ?_⟩
    rw [hhop k, setHop_addr]
    exact fun _ => rfl
  · obtain ⟨i, hi, -⟩ := hopIndex_eq httl.1 httl.2
    rw [if_neg (fun h => hfirst h.2)]
    exact recordReply_of_unexpected now hport hunexpected hi

def probed (address : SockAddr) (ttl firstTtl errType : ℤ) : Dest where
  addr := some address
  id := 0
  probes := 1
  firstResponse := 0
  ttl := ttl
  firstTtl := firstTtl
  pathLength := 0
  doneForward := false
  attempts := 0
  noReplyCount := 0
  errType := errType
  errCode := 0
  hop := fun _ => { timeSent := 0, delay := 0, reply := .unknown, addr := none }

theorem portUnreachable_rejected_iff (e : Endian) (now : ℤ) (hport : a.terminal = 1) (httl : 1 ≤ ttl ∧ ttl ≤ 30) :
    (∀ d : Dest, d.addr = some address → d.ttl = ttl → d.firstTtl = firstTtl → a.source ≠ address → Rejected e a now d) ↔
    a.source = address ∨ a.source.family ≠ address.family ∧ Placed a ttl firstTtl := by
  constructor
  · intro h
    by_contra hnot
    obtain ⟨hsource, hcond⟩ := not_or.mp hnot
    -- an error type that this one would overwrite
    obtain ⟨d', m, hreply, htype, -, -⟩ :=
      h (probed address ttl firstTtl (uint8 a.type + 1)) rfl rfl rfl hsource
    have hkept : d'.errType = uint8 a.type + 1 := by
      by_cases hfamily : a.source.family ≠ address.family
      · exact processReply_of_not_placed hport (fun hplaced => hcond ⟨hfamily, hplaced⟩) hreply
      · exact processReply_of_expected hport (fun hunexpected =>
          hfamily ((unexpected_port hport rfl).mp hunexpected)) hreply
    omega
  · rintro (hsource | ⟨hfamily, hplaced⟩) d haddr rfl rfl hother
    · exact absurd hsource hother
    · exact rejected_of_placed hport ((unexpected_port hport haddr).mpr hfamily) hplaced httl

end Port

theorem portUnreachable_rejected_family : Rejected .little ⟨.inet6 #v[0xb80d, 0x0120, 0, 0, 0, 0, 0, 0x0100], 5120, 1, 4, 1⟩ 1000
      (probed (.inet 0x090200c0#32) 5 3 0) := by
  refine (portUnreachable_rejected_iff .little 1000 rfl (by decide)).mpr (.inr ⟨by decide, ?_⟩)
    (probed (.inet 0x090200c0#32) 5 3 0) rfl rfl rfl (fun h => by cases h)
  exact fun h => absurd h (by decide)

theorem portUnreachable_elsewhere :
    ¬Rejected .little ⟨.inet 0x010200c0#32, 5120, 3, 3, 1⟩ 1000 (probed (.inet 0x090200c0#32) 5 3 0) ∧
      ∃ d' m, processReply .little ⟨.inet 0x010200c0#32, 5120, 3, 3, 1⟩ 1000 (probed (.inet 0x090200c0#32) 5 3 0) = .ok (d', m) ∧
        (d'.hop 4).addr = some (.inet 0x010200c0#32) ∧ d'.pathLength = 5 ∧ d'.doneForward = true ∧ d'.errType = 0 := by
  refine ⟨?_, _, _, rfl, rfl, rfl, rfl, rfl⟩
  rintro ⟨d', m, hreply, htype, -, -⟩
  have hkept := processReply_of_expected rfl (by decide) hreply
  rw [hkept] at htype
  exact absurd htype (by decide)

end Amplet.TracerouteDestination
