import Amplet.TracerouteProbe

/-!
# What is known of a destination while it is probed

Probing goes forward from the initial TTL, which is halved as long as nothing
replies, and then backward from the first hop that replied.
-/

namespace Amplet.TracerouteSound
open Failing TracerouteProbe

theorem int8_eq {x : ℤ} (h : -128 ≤ x) (h' : x < 128) : int8 x = x := by
  simp only [int8]
  omega

theorem uint8_eq {x : ℤ} (h : 0 ≤ x) (h' : x < 256) : uint8 x = x := by
  simp only [uint8]
  omega

variable {ttl : ℤ}

theorem hopIndex_eq (h : 1 ≤ ttl) (h' : ttl ≤ 30) : ∃ i : Fin 30, hopIndex ttl = .ok i ∧ (i : ℤ) + 1 = ttl := by
  have hrange : 0 ≤ ttl - 1 ∧ ttl - 1 < 30 := by omega
  refine ⟨⟨(ttl - 1).toNat, by omega⟩, ?_, ?_⟩
  · rw [hopIndex, dif_pos hrange]
  · simp only
    omega

def Silent (d : Dest) (ttl : ℤ) : Prop := ∃ i : Fin 30, (i : ℤ) + 1 = ttl ∧ (d.hop i).reply = .timedOut

def Tried (firstTtl ttl : ℤ) : Prop := ttl = firstTtl ∨ ttl = firstTtl / 2 ∨ ttl = firstTtl / 4

structure Forward (d : Dest) : Prop where
  noReply : 0 ≤ d.noReplyCount ∧ d.noReplyCount ≤ 4 ∧ d.noReplyCount ≤ d.ttl - 1
  unanswered : d.firstResponse = 0 → d.noReplyCount = 0 ∧ Tried d.firstTtl d.ttl
  answered : d.firstResponse ≤ d.ttl
  skipped : ∀ ttl, d.ttl < ttl ∨ d.firstResponse = 0 → Silent d ttl → Tried d.firstTtl ttl
  passed : d.ttl < d.firstTtl → Silent d d.firstTtl
  first : d.ttl = d.firstTtl → d.noReplyCount = 0

structure Sound (d : Dest) : Prop where
  firstTtl : 3 ≤ d.firstTtl ∧ d.firstTtl ≤ 7
  ttl : 1 ≤ d.ttl ∧ d.ttl ≤ 30
  attempts : 0 ≤ d.attempts ∧ d.attempts ≤ 2
  response : 0 ≤ d.firstResponse ∧ d.firstResponse ≤ 30
  forward : d.doneForward = false → Forward d
  backward : d.doneForward = true → d.ttl ≤ d.firstResponse - 1 ∧ d.noReplyCount = 0

def work (d : Dest) : ℤ :=
  3 * (if d.doneForward then d.ttl - 1
    else if d.firstResponse = 0 then 60 + d.ttl else 59 - d.ttl) + (3 - d.attempts)

structure Same (d d' : Dest) : Prop where
  addr : d'.addr = d.addr
  id : d'.id = d.id
  firstTtl : d'.firstTtl = d.firstTtl
  probes : d'.probes = d.probes

def InPath (d : Dest) : Prop := 0 ≤ d.pathLength ∧ d.pathLength ≤ 30

section

variable {d d' : Dest} {count : ℤ}

variable {i : Fin 30}

theorem silent_setHop {f : Hop → Hop} (hne : (i : ℤ) + 1 ≠ ttl) : Silent (d.setHop i f) ttl ↔ Silent d ttl := by
  simp only [Silent, Dest.setHop]
  refine exists_congr fun j => and_congr_right fun hj => ?_
  have hji : j ≠ i := fun h => hne (h ▸ hj)
  rw [Function.update_of_ne hji]

theorem Tried.next {firstTtl : ℤ} (h : Tried firstTtl ttl) (hfirst : 3 ≤ firstTtl ∧ firstTtl ≤ 7)
    (httl : 2 ≤ ttl) : ttl ≤ 7 ∧ ¬Tried firstTtl (ttl + 1) := by
  simp only [Tried] at h ⊢
  omega

inductive Advances (d : Dest) : ℤ → ℤ → Prop
  | next (h : ¬Silent d (d.ttl + 1)) : Advances d (d.ttl + 1) d.noReplyCount
  | limit (h : Silent d (d.ttl + 1)) (hlast : d.noReplyCount = 4) : Advances d (d.ttl + 1) 5
  | skip (h : Silent d (d.ttl + 1)) (hmore : d.noReplyCount < 4) (hnext : ¬Silent d (d.ttl + 2)) :
      Advances d (d.ttl + 2) (d.noReplyCount + 1)

theorem hopIndex_silent (hi : (i : ℤ) + 1 = ttl) : (d.hop i).reply = .timedOut ↔ Silent d ttl := by
  constructor
  · exact fun h => ⟨i, hi, h⟩
  · rintro ⟨j, hj, h⟩
    obtain rfl : j = i := by
      apply Fin.ext
      omega
    exact h

section

variable (h : 1 ≤ d.ttl) (h' : d.ttl ≤ 30) {n : ℕ}
include h h'

theorem skipTimedOut_stop (hsilent : ¬Silent d d.ttl) : skipTimedOut (n + 1) d = .ok d := by
  obtain ⟨i, hi, hval⟩ := hopIndex_eq h h'
  rw [skipTimedOut, hi, ok_bind, if_neg (fun hreply => hsilent ((hopIndex_silent hval).1 hreply))]

theorem skipTimedOut_limit (hsilent : Silent d d.ttl) (hlast : d.noReplyCount = 4) :
    skipTimedOut (n + 1) d = .ok { d with noReplyCount := 5 } := by
  obtain ⟨i, hi, hval⟩ := hopIndex_eq h h'
  rw [skipTimedOut, hi, ok_bind, if_pos ((hopIndex_silent hval).2 hsilent)]
  simp [hlast, uint8, noReplyLimit]

theorem skipTimedOut_skip (hsilent : Silent d d.ttl) (hcount : 0 ≤ d.noReplyCount ∧ d.noReplyCount < 4) : skipTimedOut (n + 1) d =
      skipTimedOut n { d with noReplyCount := d.noReplyCount + 1, ttl := d.ttl + 1 } := by
  obtain ⟨i, hi, hval⟩ := hopIndex_eq h h'
  have hn : uint8 (d.noReplyCount + 1) = d.noReplyCount + 1 := uint8_eq (by omega) (by omega)
  have ht : int8 (d.ttl + 1) = d.ttl + 1 := int8_eq (by omega) (by omega)
  rw [skipTimedOut, hi, ok_bind, if_pos ((hopIndex_silent hval).2 hsilent)]
  simp only [hn, ht, noReplyLimit]
  rw [if_neg (by omega)]

end

theorem incProbeTtl_forward (hfirst : 3 ≤ d.firstTtl ∧ d.firstTtl ≤ 7) (hforward : d.doneForward = false)
    (hresponse : d.attempts ≤ 2 ∨ d.firstResponse ≠ 0) (httl : 1 ≤ d.ttl ∧ d.ttl < 30)
    (hcount : 0 ≤ d.noReplyCount ∧ d.noReplyCount ≤ 4)
    (hskipped : ∀ ttl, d.ttl < ttl → Silent d ttl → Tried d.firstTtl ttl) :
    ∃ ttl count, Advances d ttl count ∧ incProbeTtl d = .ok { d with ttl := ttl, noReplyCount := count, attempts := 0 } := by
  have ht : int8 (d.ttl + 1) = d.ttl + 1 := int8_eq (by omega) (by omega)
  have hbranch : ¬(retryLimit < d.attempts ∧ d.firstResponse = 0) := by
    simp only [retryLimit]
    omega
  rw [incProbeTtl, if_pos (show d.ttl < maxHopsInPath from httl.2), if_neg hbranch, if_pos hforward, ht]
  by_cases hsilent : Silent d (d.ttl + 1)
  · by_cases hlast : d.noReplyCount = 4
    · refine ⟨_, _, .limit hsilent hlast, ?_⟩
      rw [skipTimedOut_limit (d := { d with ttl := d.ttl + 1 }) (by simp only; omega)
        (by simp only; omega) hsilent hlast, ok_bind]
    · obtain ⟨hsmall, hnot⟩ := (hskipped _ (by omega) hsilent).next hfirst (by omega)
      have hnext : ¬Silent d (d.ttl + 2) := by
        intro h
        refine hnot ?_
        rw [show d.ttl + 1 + 1 = d.ttl + 2 by omega]
        exact hskipped _ (by omega) h
      refine ⟨_, _, .skip hsilent (by omega) hnext, ?_⟩
      rw [skipTimedOut_skip (d := { d with ttl := d.ttl + 1 }) (by simp only; omega)
        (by simp only; omega) hsilent (by simp only; omega)]
      simp only [show d.ttl + 1 + 1 = d.ttl + 2 by omega]
      rw [skipTimedOut_stop (by simp only; omega) (by simp only; omega) hnext, ok_bind]
  · refine ⟨_, _, .next hsilent, ?_⟩
    rw [skipTimedOut_stop (d := { d with ttl := d.ttl + 1 }) (by simp only; omega) (by simp only; omega) hsilent, ok_bind]

theorem incProbeTtl_backward (hdone : d.doneForward = true)
    (hresponse : d.attempts ≤ 2 ∨ d.firstResponse ≠ 0) (httl : 1 ≤ d.ttl ∧ d.ttl < 30) :
    incProbeTtl d = .ok { d with ttl := d.ttl - 1, attempts := 0 } := by
  have ht : int8 (d.ttl - 1) = d.ttl - 1 := int8_eq (by omega) (by omega)
  have hbranch : ¬(retryLimit < d.attempts ∧ d.firstResponse = 0) := by
    simp only [retryLimit]
    omega
  rw [incProbeTtl, if_pos (show d.ttl < maxHopsInPath from httl.2), if_neg hbranch, if_neg (by simp [hdone]), ht]

theorem incProbeTtl_halve (hattempts : 2 < d.attempts) (hresponse : d.firstResponse = 0) (httl : 1 ≤ d.ttl ∧ d.ttl < 30) :
    incProbeTtl d = .ok { d with ttl := d.ttl / 2, noReplyCount := 0, attempts := 0 } := by
  have ht : int8 (d.ttl.tdiv 2) = d.ttl / 2 := by
    rw [Int.tdiv_eq_ediv_of_nonneg (by omega)]
    exact int8_eq (by omega) (by omega)
  rw [incProbeTtl, if_pos (show d.ttl < maxHopsInPath from httl.2),
    if_pos (show retryLimit < d.attempts ∧ d.firstResponse = 0 from ⟨hattempts, hresponse⟩), ht]

def silence (d : Dest) (i : Fin 30) : Dest :=
  d.setHop i fun hop => { hop with addr := none, reply := .timedOut }

def givenUp (d : Dest) (i : Fin 30) : Dest :=
  { silence d i with
    attempts := 3
    noReplyCount := if d.doneForward then d.noReplyCount else uint8 (d.noReplyCount + 1) }

def Limit (d : Dest) : Prop :=
  d.noReplyCount = 4 ∨ 29 ≤ d.ttl ∨ d.noReplyCount = 3 ∧ Silent d (d.ttl + 1)

inductive Attempted (d : Dest) (i : Fin 30) : Dest → ℤ → Prop
  | retry (h : d.attempts < 2) : Attempted d i { d with attempts := d.attempts + 1 } 1
  | backward (h : d.attempts = 2) (hdone : d.doneForward = true) :
      Attempted d i { silence d i with ttl := d.ttl - 1, attempts := 0 } (d.ttl - 1)
  | halved (h : d.attempts = 2) (hforward : d.doneForward = false) (hnone : d.firstResponse = 0) :
      Attempted d i { silence d i with ttl := d.ttl / 2, noReplyCount := 0, attempts := 0 } (d.ttl / 2)
  | forward {ttl count : ℤ} (h : d.attempts = 2) (hforward : d.doneForward = false)
      (hsome : d.firstResponse ≠ 0) (hlimit : ¬Limit d)
      (hadvances : Advances (givenUp d i) ttl count)
      (httl : ttl ≤ 29) (hcount : count ≤ 4) :
      Attempted d i { silence d i with ttl := ttl, noReplyCount := count, attempts := 0 } ttl
  | ended {length : ℤ} (h : d.attempts = 2) (hforward : d.doneForward = false)
      (hsome : d.firstResponse ≠ 0) (hlimit : Limit d) (hlength : 1 ≤ length ∧ length ≤ 30) :
      Attempted d i
        { silence d i with
          doneForward := true, pathLength := length, ttl := d.firstResponse - 1
          attempts := 0, noReplyCount := 0 }
        (d.firstResponse - 1)

theorem silent_silence (hne : (i : ℤ) + 1 ≠ ttl) : Silent (silence d i) ttl ↔ Silent d ttl := silent_setHop hne

section

variable (h : d.attempts = 2) (hi : hopIndex d.ttl = .ok i)
include h hi

theorem incAttemptCounter_third : incAttemptCounter d = (do
      let d' ←
        if (givenUp d i).noReplyCount < noReplyLimit ∧ d.ttl < maxHopsInPath then
          incProbeTtl (givenUp d i)
        else .ok (givenUp d i)
      .ok (giveUpForward d', (giveUpForward d').ttl)) := by
  have hcount : uint8 (d.attempts + 1) = 3 := by rw [h]; rfl
  cases hdone : d.doneForward <;>
    simp [incAttemptCounter, hcount, retryLimit, hi, hdone, givenUp, silence, Dest.setHop]

theorem incAttemptCounter_move (hcount : (givenUp d i).noReplyCount < 5) (httl : d.ttl < 30)
    (hmove : incProbeTtl (givenUp d i) = .ok d') :
    incAttemptCounter d = .ok (giveUpForward d', (giveUpForward d').ttl) := by
  rw [incAttemptCounter_third h hi, if_pos ⟨hcount, httl⟩, hmove, ok_bind]

theorem incAttemptCounter_stay (hend : 5 ≤ (givenUp d i).noReplyCount ∨ 30 ≤ d.ttl) :
    incAttemptCounter d = .ok (giveUpForward (givenUp d i), (giveUpForward (givenUp d i)).ttl) := by
  have hnot : ¬((givenUp d i).noReplyCount < noReplyLimit ∧ d.ttl < maxHopsInPath) := by
    simp only [noReplyLimit, maxHopsInPath]
    omega
  rw [incAttemptCounter_third h hi, if_neg hnot, ok_bind]

end

theorem giveUpForward_done (h : d.doneForward = true) : giveUpForward d = d := by
  rw [giveUpForward, if_neg (by simp [h])]

theorem giveUpForward_going (h : d.noReplyCount ≤ 4) (httl : d.ttl ≤ 29) : giveUpForward d = d := by
  have hnot : ¬(noReplyLimit ≤ d.noReplyCount ∨ maxHopsInPath ≤ d.ttl) := by
    simp only [noReplyLimit, maxHopsInPath]
    omega
  rw [giveUpForward, if_neg fun hboth => hnot hboth.2]

theorem giveUpForward_ended (hforward : d.doneForward = false) (httl : 0 ≤ d.ttl ∧ d.ttl ≤ 30)
    (hresponse : 0 ≤ d.firstResponse ∧ d.firstResponse ≤ 30)
    (hlimit : 5 ≤ d.noReplyCount ∨ 30 ≤ d.ttl) :
    giveUpForward d =
      { d with
        doneForward := true, pathLength := d.ttl, ttl := d.firstResponse - 1
        attempts := 0, noReplyCount := 0 } := by
  have ht : uint8 d.ttl = d.ttl := uint8_eq (by omega) (by omega)
  have hr : int8 (d.firstResponse - 1) = d.firstResponse - 1 := int8_eq (by omega) (by omega)
  rw [giveUpForward, if_pos ⟨hforward, hlimit⟩, ht, hr]

theorem givenUp_count (h : d.doneForward = false) (hcount : 0 ≤ d.noReplyCount ∧ d.noReplyCount ≤ 4) :
    (givenUp d i).noReplyCount = d.noReplyCount + 1 := by
  simp only [givenUp, h, Bool.false_eq_true, if_false]
  exact uint8_eq (by omega) (by omega)

theorem Advances.limit_iff (h : Advances (givenUp d i) ttl count) (hval : (i : ℤ) + 1 = d.ttl)
    (hcount : (givenUp d i).noReplyCount = d.noReplyCount + 1) (hn : d.noReplyCount ≤ 3)
    (hsmall : Silent d (d.ttl + 1) → d.ttl ≤ 6) : (5 ≤ count ∨ 30 ≤ ttl) ↔ Limit d := by
  have hsilent : Silent (givenUp d i) (d.ttl + 1) ↔ Silent d (d.ttl + 1) :=
    silent_silence (i := i) (by omega)
  have httl : (givenUp d i).ttl = d.ttl := rfl
  cases h with
  | next hnot =>
    rw [httl, hsilent] at hnot
    rw [hcount, httl, Limit]
    simp only [hnot, and_false, or_false]
    omega
  | limit hsil hlast =>
    rw [httl, hsilent] at hsil
    rw [Limit]
    simp only [hsil, and_true]
    omega
  | skip hsil hmore hnext =>
    rw [httl, hsilent] at hsil
    have := hsmall hsil
    rw [hcount] at hmore ⊢
    rw [httl, Limit]
    omega

theorem incAttemptCounter_forward (h : Sound d) (hlast : d.attempts = 2)
    (hi : hopIndex d.ttl = .ok i) (hval : (i : ℤ) + 1 = d.ttl) (hforward : d.doneForward = false)
    (hsome : d.firstResponse ≠ 0) :
    ∃ d' k, incAttemptCounter d = .ok (d', k) ∧ Attempted d i d' k := by
  have hf := h.forward hforward
  have hn := hf.noReply
  have httl := h.ttl
  have hresponse := h.response
  have hcount := givenUp_count (i := i) hforward ⟨hn.1, hn.2.1⟩
  by_cases hend : d.noReplyCount = 4 ∨ d.ttl = 30
  · -- the limit is reached without moving on
    have hlimit : Limit d := by
      rcases hend with hn | ht
      · exact .inl hn
      · exact .inr (.inl (by omega))
    have hover : 5 ≤ (givenUp d i).noReplyCount ∨ 30 ≤ d.ttl := by omega
    refine ⟨_, _, ?_, .ended hlast hforward hsome hlimit httl⟩
    rw [incAttemptCounter_stay hlast hi hover,
      giveUpForward_ended (d := givenUp d i) hforward (show 0 ≤ d.ttl ∧ d.ttl ≤ 30 by omega) hresponse hover]
    rfl
  have hskipped : ∀ ttl, d.ttl < ttl → Silent (givenUp d i) ttl → Tried d.firstTtl ttl := by
    intro ttl hlater hsilent
    refine hf.skipped ttl (.inl hlater) ((silent_silence (i := i) ?_).1 hsilent)
    omega
  obtain ⟨ttl, count, hadvances, hmove⟩ :=
    incProbeTtl_forward (d := givenUp d i) h.firstTtl hforward (.inr hsome)
      (show 1 ≤ d.ttl ∧ d.ttl < 30 by omega) (by rw [hcount]; omega) hskipped
  have hsmall : Silent d (d.ttl + 1) → d.ttl ≤ 6 := by
    intro hsilent
    have htried := hf.skipped _ (.inl (by omega)) hsilent
    have := (htried.next h.firstTtl (by omega)).1
    omega
  have hiff := hadvances.limit_iff hval hcount (by omega) hsmall
  rw [incAttemptCounter_move hlast hi (by omega) (by omega) hmove]
  by_cases hlimit : Limit d
  · have hlength : 1 ≤ ttl ∧ ttl ≤ 30 := by
      have hbelow : (givenUp d i).ttl = d.ttl := rfl
      cases hadvances with
      | next hnot => omega
      | limit hsil hmost => omega
      | skip hsil hmore hnext =>
        have := hsmall ((silent_silence (i := i) (by omega)).1 hsil)
        omega
    refine ⟨_, _, ?_, .ended hlast hforward hsome hlimit hlength⟩
    rw [giveUpForward_ended (d := { givenUp d i with ttl := ttl, noReplyCount := count, attempts := 0 })
      hforward (show 0 ≤ ttl ∧ ttl ≤ 30 by omega) hresponse (hiff.2 hlimit)]
    rfl
  · have hgoing := mt hiff.1 hlimit
    refine ⟨_, _, ?_, .forward hlast hforward hsome hlimit hadvances (by omega) (by omega)⟩
    rw [giveUpForward_going (show count ≤ 4 by omega) (show ttl ≤ 29 by omega)]
    rfl

theorem incAttemptCounter_cases (h : Sound d) : ∃ (i : Fin 30) (d' : Dest) (k : ℤ),
    (i : ℤ) + 1 = d.ttl ∧ incAttemptCounter d = .ok (d', k) ∧ Attempted d i d' k := by
  obtain ⟨i, hi, hval⟩ := hopIndex_eq h.ttl.1 h.ttl.2
  have hattempts := h.attempts
  have httl := h.ttl
  refine ⟨i, ?_⟩
  by_cases hretry : d.attempts < 2
  · refine ⟨_, _, hval, ?_, .retry hretry⟩
    have hcount : uint8 (d.attempts + 1) = d.attempts + 1 := uint8_eq (by omega) (by omega)
    rw [incAttemptCounter]
    simp only [hcount, retryLimit]
    rw [if_pos (by omega)]
  have hlast : d.attempts = 2 := by omega
  cases hdone : d.doneForward with
  | true =>
    obtain ⟨hbelow, hnone⟩ := h.backward hdone
    have hresponse := h.response
    have hcount : (givenUp d i).noReplyCount = 0 := by simp [givenUp, hdone, hnone]
    have hmove := incProbeTtl_backward (d := givenUp d i) hdone
      (.inr (show d.firstResponse ≠ 0 by omega)) (show 1 ≤ d.ttl ∧ d.ttl < 30 by omega)
    refine ⟨_, _, hval, ?_, .backward hlast hdone⟩
    have hstay := giveUpForward_done (d := { givenUp d i with ttl := (givenUp d i).ttl - 1, attempts := 0 }) hdone
    rw [incAttemptCounter_move hlast hi (by omega) (by omega) hmove, hstay]
    simp only [givenUp, hdone, if_true]
    rfl
  | false =>
    by_cases hnone : d.firstResponse = 0
    · obtain ⟨hn, htried⟩ := (h.forward hdone).unanswered hnone
      have hfirst := h.firstTtl
      have hsmall : d.ttl ≤ 7 := by
        simp only [Tried] at htried
        omega
      have hcount : (givenUp d i).noReplyCount = 1 := by
        simp only [givenUp, hdone, Bool.false_eq_true, if_false, hn]
        rfl
      have hmove := incProbeTtl_halve (d := givenUp d i) (show (2 : ℤ) < 3 by decide) hnone (show 1 ≤ d.ttl ∧ d.ttl < 30 by omega)
      refine ⟨_, _, hval, ?_, .halved hlast hdone hnone⟩
      rw [incAttemptCounter_move hlast hi (by omega) (by omega) hmove,
        giveUpForward_going (show (0 : ℤ) ≤ 4 by decide) (show d.ttl / 2 ≤ 29 by omega)]
      rfl
    · obtain ⟨d', k, heq, hk⟩ := incAttemptCounter_forward h hlast hi hval hdone hnone
      exact ⟨d', k, hval, heq, hk⟩

theorem Advances.forward (h : Advances d ttl count) (hresponse : d.firstResponse ≠ 0)
    (hanswered : d.firstResponse ≤ d.ttl) (hn : 0 ≤ d.noReplyCount ∧ d.noReplyCount ≤ d.ttl)
    (hskipped : ∀ ttl, d.ttl < ttl → Silent d ttl → Tried d.firstTtl ttl)
    (hpassed : d.ttl < d.firstTtl → Silent d d.firstTtl) (hcount : count ≤ 4) :
    Forward { d with ttl := ttl, noReplyCount := count, attempts := 0 } := by
  have hbounds : d.ttl < ttl ∧ 0 ≤ count ∧ count ≤ ttl - 1 := by
    cases h <;> omega
  refine
    { noReply := ⟨hbounds.2.1, hcount, hbounds.2.2⟩
      unanswered := fun hnone => absurd hnone hresponse
      answered := hanswered.trans hbounds.1.le
      skipped := fun ttl' hlater hsilent =>
        hskipped ttl' (hbounds.1.trans (hlater.resolve_right hresponse)) hsilent
      passed := fun hbelow => hpassed (hbounds.1.trans hbelow)
      first := ?_ }
  intro hfirst
  -- the initial TTL was silent, so it is passed over
  have hsilent : Silent d ttl := by
    have := hpassed (hbounds.1.trans_eq hfirst)
    rwa [← show ttl = d.firstTtl from hfirst] at this
  cases h with
  | next hnot => exact absurd hsilent hnot
  | limit hsil hlast => omega
  | skip hsil hmore hnext => exact absurd hsilent hnext

theorem Sound.of_backward (hfirst : 3 ≤ d.firstTtl ∧ d.firstTtl ≤ 7) (hdone : d.doneForward = true)
    (httl : 1 ≤ d.ttl ∧ d.ttl ≤ d.firstResponse - 1) (hresponse : d.firstResponse ≤ 30)
    (hattempts : 0 ≤ d.attempts ∧ d.attempts ≤ 2) (hn : d.noReplyCount = 0) : Sound d where
  firstTtl := hfirst
  ttl := by omega
  attempts := hattempts
  response := by omega
  forward := fun hforward => absurd (hdone.symm.trans hforward) (by decide)
  backward := fun _ => ⟨httl.2, hn⟩

theorem work_backward (h : d.doneForward = true) : work d = 3 * (d.ttl - 1) + (3 - d.attempts) := by
  rw [work, if_pos h]

theorem work_halving (h : d.doneForward = false) (hnone : d.firstResponse = 0) :
    work d = 3 * (60 + d.ttl) + (3 - d.attempts) := by
  rw [work, if_neg (by simp [h]), if_pos hnone]

theorem work_forward (h : d.doneForward = false) (hsome : d.firstResponse ≠ 0) :
    work d = 3 * (59 - d.ttl) + (3 - d.attempts) := by
  rw [work, if_neg (by simp [h]), if_neg hsome]

theorem Sound.work_ge (h : Sound d) (hforward : d.doneForward = false) : 88 ≤ work d := by
  have httl := h.ttl
  have hattempts := h.attempts
  by_cases hnone : d.firstResponse = 0
  · rw [work_halving hforward hnone]
    omega
  · rw [work_forward hforward hnone]
    omega

def Exhausted (d : Dest) : Prop :=
  d.attempts = 2 ∧
    if d.doneForward then d.ttl = 1
    else if d.firstResponse = 0 then d.ttl = 1 else d.firstResponse = 1 ∧ Limit d

section

variable {i : Fin 30} {k : ℤ}

theorem Attempted.same (h : Attempted d i d' k) : Same d d' := by
  cases h <;> exact ⟨rfl, rfl, rfl, rfl⟩

theorem Attempted.path (h : Attempted d i d' k) (hpath : InPath d) : InPath d' := by
  cases h with
  | retry | backward | halved | forward => exact hpath
  | ended hlast hforward hsome hlimit hlength => exact ⟨by simp only; omega, hlength.2⟩

theorem Advances.lt (h : Advances d ttl count) : d.ttl < ttl := by
  cases h <;> omega

theorem Attempted.zero_iff (h : Attempted d i d' k) (hd : Sound d) : k = 0 ↔ Exhausted d := by
  have httl := hd.ttl
  cases h with
  | retry hretry =>
    refine iff_of_false (by decide) fun hex => ?_
    have := hex.1
    omega
  | backward hlast hdone =>
    simp only [Exhausted, hlast, hdone, ↓reduceIte, true_and]
    omega
  | halved hlast hforward hnone =>
    simp only [Exhausted, hlast, hforward, hnone, Bool.false_eq_true, ↓reduceIte, true_and]
    omega
  | forward hlast hforward hsome hlimit hadvances hmost hcount =>
    have hlt : d.ttl < k := hadvances.lt
    simp only [Exhausted, hforward, hsome, hlimit, Bool.false_eq_true, ↓reduceIte, and_false, iff_false]
    omega
  | ended hlast hforward hsome hlimit hlength =>
    simp only [Exhausted, hlast, hforward, hsome, hlimit, Bool.false_eq_true, ↓reduceIte, true_and, and_true]
    omega

theorem Attempted.zero (h : Attempted d i d' k) (hd : Sound d) (hk : k = 0) :
    d'.ttl = 0 ∧ d'.noReplyCount = 0 ∧ d'.firstResponse = d.firstResponse ∧ d'.attempts = 0 := by
  have httl := hd.ttl
  cases h with
  | retry hretry => omega
  | backward hlast hdone => exact ⟨hk, (hd.backward hdone).2, rfl, rfl⟩
  | halved hlast hforward hnone => exact ⟨hk, rfl, rfl, rfl⟩
  | forward hlast hforward hsome hlimit hadvances hmost hcount =>
    have hlt : d.ttl < k := hadvances.lt
    omega
  | ended hlast hforward hsome hlimit hlength => exact ⟨hk, rfl, rfl, rfl⟩

theorem Forward.skipped_silence (hf : Forward d) (hval : (i : ℤ) + 1 = d.ttl) (hlater : d.ttl < ttl)
    (hsilent : Silent (silence d i) ttl) : Tried d.firstTtl ttl :=
  hf.skipped ttl (.inl hlater) ((silent_silence (by omega)).1 hsilent)

theorem Forward.passed_silence (hf : Forward d) (hval : (i : ℤ) + 1 = d.ttl)
    (hbelow : d.ttl < d.firstTtl) : Silent (silence d i) d.firstTtl :=
  (silent_silence (by omega)).2 (hf.passed hbelow)

theorem Forward.halve (hf : Forward d) (hfirst : 3 ≤ d.firstTtl ∧ d.firstTtl ≤ 7)
    (hval : (i : ℤ) + 1 = d.ttl) (hnone : d.firstResponse = 0) (hlive : 1 ≤ d.ttl / 2) :
    Forward { silence d i with ttl := d.ttl / 2, noReplyCount := 0, attempts := 0 } := by
  obtain ⟨-, htried⟩ := hf.unanswered hnone
  have hhalf : Tried d.firstTtl (d.ttl / 2) ∧ d.ttl / 2 < d.firstTtl := by
    simp only [Tried] at htried ⊢
    omega
  have hsilenced : Silent (silence d i) d.ttl :=
    ⟨i, hval, by simp only [silence, Dest.setHop, Function.update_self]⟩
  refine
    { noReply := ⟨le_refl _, show (0 : ℤ) ≤ 4 by decide, by simp only; omega⟩
      unanswered := fun _ => ⟨rfl, hhalf.1⟩
      answered := by
        change d.firstResponse ≤ d.ttl / 2
        omega
      skipped := ?_
      passed := ?_
      first := fun _ => rfl }
  · intro ttl _ hsilent
    by_cases hsame : ttl = d.ttl
    · exact hsame ▸ htried
    · exact hf.skipped ttl (.inr hnone) ((silent_silence (by omega)).1 hsilent)
  · intro _
    by_cases hat : d.ttl = d.firstTtl
    · exact hat ▸ hsilenced
    · refine hf.passed_silence hval ?_
      simp only [Tried] at htried
      omega

theorem Attempted.live (h : Attempted d i d' k) (hd : Sound d) (hval : (i : ℤ) + 1 = d.ttl) (hk : k ≠ 0) : Sound d' := by
  have httl := hd.ttl
  have hattempts := hd.attempts
  have hresponse := hd.response
  have hzero : (0 : ℤ) ≤ 0 ∧ (0 : ℤ) ≤ 2 := by decide
  cases h with
  | retry hretry =>
    exact
      { hd with
        attempts := ⟨by simp only; omega, by simp only; omega⟩
        forward := fun hforward => { hd.forward hforward with } }
  | backward hlast hdone =>
    obtain ⟨hbelow, hn⟩ := hd.backward hdone
    exact .of_backward hd.firstTtl hdone (show 1 ≤ d.ttl - 1 ∧ d.ttl - 1 ≤ d.firstResponse - 1 by omega) hresponse.2 hzero hn
  | halved hlast hforward hnone =>
    exact
      { hd with
        ttl := ⟨by simp only; omega, by simp only; omega⟩
        attempts := hzero
        forward := fun hf => (hd.forward hforward).halve hd.firstTtl hval hnone (by omega)
        backward := fun hdone => absurd (hforward.symm.trans hdone) (by decide) }
  | forward hlast hforward hsome hlimit hadvances hmost hcount =>
    have hf := hd.forward hforward
    have hn := hf.noReply
    have hgiven := givenUp_count (i := i) hforward ⟨hn.1, hn.2.1⟩
    have hlt : d.ttl < k := hadvances.lt
    have hnext := hadvances.forward hsome hf.answered
      (show 0 ≤ (givenUp d i).noReplyCount ∧ (givenUp d i).noReplyCount ≤ d.ttl by omega)
      (fun ttl hlater hsilent => hf.skipped_silence hval hlater hsilent)
      (fun hbelow => hf.passed_silence hval hbelow) hcount
    exact
      { hd with
        ttl := ⟨by simp only; omega, by simp only; omega⟩
        attempts := hzero
        forward := fun _ => { hnext with }
        backward := fun hdone => absurd (hforward.symm.trans hdone) (by decide) }
  | ended hlast hforward hsome hlimit hlength =>
    exact .of_backward hd.firstTtl rfl (show 1 ≤ d.firstResponse - 1 ∧ d.firstResponse - 1 ≤ d.firstResponse - 1 by omega)
      hresponse.2 hzero rfl

theorem Attempted.shorter (h : Attempted d i d' k) (hd : Sound d) (hk : k ≠ 0) : work d' < work d := by
  have httl := hd.ttl
  have hresponse := hd.response
  cases h with
  | retry hretry =>
    simp only [work]
    omega
  | backward hlast hdone =>
    simp only [work, silence, Dest.setHop, hdone, ↓reduceIte, hlast]
    omega
  | halved hlast hforward hnone =>
    simp only [work, silence, Dest.setHop, hforward, Bool.false_eq_true, hnone, ↓reduceIte, hlast]
    omega
  | forward hlast hforward hsome hlimit hadvances hmost hcount =>
    have hlt : d.ttl < k := hadvances.lt
    simp only [work, silence, Dest.setHop, hforward, Bool.false_eq_true, hsome, ↓reduceIte, hlast]
    omega
  | ended hlast hforward hsome hlimit hlength =>
    have := hd.work_ge hforward
    rw [work_backward rfl]
    simp only
    omega

end

end

end Amplet.TracerouteSound
