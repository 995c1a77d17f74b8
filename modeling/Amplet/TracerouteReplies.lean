import Amplet.TracerouteSound

/-!
# What a reply makes of a destination

A destination that is probed soundly is so after a reply, unless the reply sends
its TTL out of the array of hops, and is closer to the end of probing, unless the
reply makes backward probing start again.
-/

namespace Amplet.TracerouteReplies
open Function Failing SocketAddress TracerouteProbe TracerouteSound

def hopTtl (a : Answer) (d : Dest) : ℤ :=
  if a.terminal ≠ 0 ∧ d.ttl = d.firstTtl then d.firstTtl - a.embeddedTtl + 1 else d.ttl

/-- The target was hit by the first probe and quotes a TTL just above the one
that was sent. -/
def BelowFirst (a : Answer) (d : Dest) : Prop :=
  a.terminal ≠ 0 ∧ d.ttl = d.firstTtl ∧ a.embeddedTtl = d.firstTtl + 1

/-- The reply of a hop came, or was first recorded, after the loss timeout. -/
def Late (e : Endian) (a : Answer) (now : ℤ) (d : Dest) : Prop :=
  a.unexpected e d = false ∧ a.terminal = 0 ∧ d.ttl < maxHopsInPath ∧ ¬(d.doneForward = true ∧ d.ttl = 1) ∧
    ∃ i : Fin 30, (i : ℤ) + 1 = d.ttl ∧ lossTimeoutUs ≤ (d.hop i).replyDelay now

/-- An error that probing recovers from is the last attempt at the first hop. -/
def PastFirst (e : Endian) (a : Answer) (d : Dest) : Prop :=
  a.unexpected e d = true ∧ a.terminal = 0 ∧ d.attempts = 2 ∧
    if d.doneForward then d.ttl = 1 else d.firstResponse = 1 ∧ Limit d

def Restarts (e : Endian) (a : Answer) (d : Dest) : Prop :=
  d.doneForward = true ∧
    if a.unexpected e d then
      if a.terminal = 0 then d.attempts = 2 ∧ d.ttl = 1 else 1 ≤ hopTtl a d
    else
      2 ≤ hopTtl a d ∧ (a.terminal = 2 ∨ a.terminal = 1 ∧ d.ttl = d.firstTtl ∧ a.embeddedTtl = 0)

structure Replied (e : Endian) (a : Answer) (now : ℤ) (d d' : Dest) (m : Move) : Prop where
  same : Same d d'
  live : m = .ready → Sound d'
  lost : m = .lost ↔ Late e a now d
  path : ¬PastFirst e a d → InPath d → InPath d'
  wrapped : PastFirst e a d → d'.pathLength = 255
  shorter : m = .ready → ¬Restarts e a d → work d' < work d

section

variable {e : Endian} {a : Answer} {now : ℤ} {d d' : Dest} {m : Move} {d₀ : Dest} {ttl : ℤ}

theorem terminal_cases (a : Answer) : a.terminal = 0 ∨ a.terminal = 1 ∨ a.terminal = 2 := by
  unfold Answer.terminal terminalError
  repeat' split
  all_goals simp

theorem unexpected_congr (h : d'.addr = d.addr) : a.unexpected e d' = a.unexpected e d := by
  rw [Answer.unexpected, Answer.unexpected, h]

def firstReply (d : Dest) : ℤ := if d.firstResponse = 0 then d.ttl else d.firstResponse

structure Turned (e : Endian) (a : Answer) (d d' : Dest) (m : Move) : Prop where
  same : Same d d'
  kept : m ≠ .lost
  path : InPath d → InPath d'
  sound : m = .ready → Sound d'
  back : m = .ready → d'.doneForward = true ∧ d'.attempts = 0
  ttl : m = .ready → d'.ttl ≤ 29 ∧ (d.doneForward = true → a.unexpected e d = true ∨ a.terminal = 2 ∧ 2 ≤ d.ttl) ∨
    d.doneForward = true ∧ a.unexpected e d = false ∧ a.terminal = 1 ∧ 2 ≤ d.ttl ∧ d'.ttl = d.ttl - 1

structure Reached (d : Dest) : Prop where
  firstTtl : 3 ≤ d.firstTtl ∧ d.firstTtl ≤ 7
  ttl : 1 ≤ d.ttl ∧ d.ttl ≤ 30
  response : 0 ≤ d.firstResponse ∧ d.firstResponse ≤ 30
  noReply : 0 ≤ d.noReplyCount ∧ d.noReplyCount ≤ d.ttl - 1
  backward : d.doneForward = true → 2 ≤ d.firstResponse ∧ d.ttl ≤ d.firstResponse

theorem Reached.firstReply_bounds (h : Reached d) : 1 ≤ firstReply d ∧ firstReply d ≤ 30 := by
  have httl := h.ttl
  have hresponse := h.response
  simp only [firstReply]
  split <;> omega

theorem reprobe_cases (hfirst : 3 ≤ d.firstTtl ∧ d.firstTtl ≤ 7) (hdone : d.doneForward = true)
    (httl : 0 ≤ d.ttl ∧ d.ttl ≤ d.firstResponse - 1) (hresponse : d.firstResponse ≤ 30) :
    d.reprobe = (d, .done) ∨ d.reprobe = ({ d with attempts := 0, noReplyCount := 0 }, .ready) ∧
        Sound { d with attempts := 0, noReplyCount := 0 } := by
  have hnone : (0 : ℤ) ≤ 0 ∧ (0 : ℤ) ≤ 2 := by decide
  by_cases hzero : d.ttl = 0
  · left
    rw [Dest.reprobe, if_pos hzero]
  · right
    refine ⟨by rw [Dest.reprobe, if_neg hzero], ?_⟩
    exact .of_backward hfirst hdone (show 1 ≤ d.ttl ∧ d.ttl ≤ d.firstResponse - 1 by omega) hresponse hnone rfl

theorem turned_below (hsame : Same d₀ d) (hfirst : 3 ≤ d.firstTtl ∧ d.firstTtl ≤ 7)
    (hdone : d.doneForward = true) (httl : d.ttl = d.firstResponse - 1)
    (hresponse : 1 ≤ d.firstResponse ∧ d.firstResponse ≤ 30) (hpath : InPath d)
    (hback : d₀.doneForward = true → a.unexpected e d₀ = true ∨ a.terminal = 2 ∧ 2 ≤ d₀.ttl) :
    Turned e a d₀ d.reprobe.1 d.reprobe.2 := by
  have hcases := reprobe_cases hfirst hdone (by omega) hresponse.2
  rcases hcases with heq | ⟨heq, hsound⟩
  · rw [heq]
    exact
      { same := hsame, kept := by simp, path := fun _ => hpath, sound := by simp, back := by simp
        ttl := by simp }
  · rw [heq]
    refine
      { same := ⟨hsame.addr, hsame.id, hsame.firstTtl, hsame.probes⟩, kept := by simp
        path := fun _ => hpath, sound := fun _ => hsound, back := fun _ => ⟨hdone, rfl⟩
        ttl := fun _ => .inl ⟨?_, hback⟩ }
    change d.ttl ≤ 29
    omega

theorem turned_unexpected (h : Reached d) (hsame : Same d₀ d)
    (hunexpected : a.unexpected e d₀ = true) (hresponse : 1 ≤ d.firstResponse)
    (hterminal : a.terminal ≠ 0) :
    ∃ d' m, unexpectedReply a d = .ok (d', m) ∧ Turned e a d₀ d' m := by
  have httl := h.ttl
  have hr := h.response
  have hn := h.noReply
  refine ⟨_, _, by rw [unexpectedReply, if_neg hterminal], ?_⟩
  refine turned_below ⟨hsame.addr, hsame.id, hsame.firstTtl, hsame.probes⟩ h.firstTtl rfl
    (int8_eq (by simp only; omega) (by simp only; omega)) ⟨hresponse, hr.2⟩ ?_
    (fun _ => .inl hunexpected)
  have hlength : uint8 (d.ttl - d.noReplyCount - 1) = d.ttl - d.noReplyCount - 1 :=
    uint8_eq (by omega) (by omega)
  simp only [InPath, hlength]
  omega

theorem turned_endOfPath (h : Reached d) (hsame : Same d₀ d) (hdone₀ : d₀.doneForward = d.doneForward) (httl₀ : d₀.ttl = d.ttl)
    (hexpected : a.unexpected e d₀ = false) (hresponse : 1 ≤ d.firstResponse)
    (hmore : d.doneForward = true → a.terminal ≠ 0 ∧ 2 ≤ d.ttl) :
    Turned e a d₀ (endOfPath a d).1 (endOfPath a d).2 := by
  have httl := h.ttl
  have hr := h.response
  have hlength : uint8 d.ttl = d.ttl := uint8_eq (by omega) (by omega)
  by_cases hagain : d.doneForward = true ∧ a.terminal = 1
  · obtain ⟨hdone, hone⟩ := hagain
    have hbelow : int8 (d.ttl - 1) = d.ttl - 1 := int8_eq (by omega) (by omega)
    have hback := h.backward hdone
    have htwo := (hmore hdone).2
    have hcases := reprobe_cases (d := { d with pathLength := uint8 d.ttl, ttl := int8 (d.ttl - 1) }) h.firstTtl hdone
      (by simp only [hbelow]; omega) hr.2
    have hpath : InPath { d with pathLength := uint8 d.ttl, ttl := int8 (d.ttl - 1) } := by
      simp only [InPath, hlength]
      omega
    rw [endOfPath, if_pos (show d.doneForward = true ∧ a.terminal = 1 from ⟨hdone, hone⟩)]
    rcases hcases with heq | ⟨heq, hsound⟩
    · rw [heq]
      exact
        { same := ⟨hsame.addr, hsame.id, hsame.firstTtl, hsame.probes⟩, kept := by simp
          path := fun _ => hpath, sound := by simp, back := by simp, ttl := by simp }
    · rw [heq]
      exact
        { same := ⟨hsame.addr, hsame.id, hsame.firstTtl, hsame.probes⟩, kept := by simp
          path := fun _ => hpath, sound := fun _ => hsound, back := fun _ => ⟨hdone, rfl⟩
          ttl := fun _ => .inr ⟨hdone₀.trans hdone, hexpected, hone, by omega, hbelow.trans (by rw [httl₀])⟩ }
  · rw [endOfPath, if_neg hagain]
    refine turned_below ⟨hsame.addr, hsame.id, hsame.firstTtl, hsame.probes⟩ h.firstTtl rfl
      (int8_eq (by simp only; omega) (by simp only; omega)) ⟨hresponse, hr.2⟩ ?_ ?_
    · simp only [InPath, hlength]
      omega
    · intro hdone
      obtain ⟨hterminal, htwo⟩ := hmore (hdone₀.symm.trans hdone)
      have hnot : a.terminal ≠ 1 := fun hone => hagain ⟨hdone₀.symm.trans hdone, hone⟩
      have hcases := terminal_cases a
      exact .inr ⟨by omega, by omega⟩

theorem Reached.setHop (h : Reached d) (i : Fin 30) (f : Hop → Hop) : Reached (d.setHop i f) :=
  ⟨h.firstTtl, h.ttl, h.response, h.noReply, h.backward⟩

theorem turned_expected (h : Reached d) (hsame : Same d₀ d) (hdone₀ : d₀.doneForward = d.doneForward) (httl₀ : d₀.ttl = d.ttl)
    (hpath₀ : InPath d₀ → InPath d) (hexpected : a.unexpected e d₀ = false)
    (hresponse : 1 ≤ d.firstResponse) (hterminal : a.terminal ≠ 0) :
    ∃ d' m, expectedReply a d.ttl d = .ok (d', m) ∧ Turned e a d₀ d' m := by
  have httl := h.ttl
  have hr := h.response
  obtain ⟨i, hi, hval⟩ := hopIndex_eq httl.1 httl.2
  by_cases hend : d.doneForward = true ∧ d.ttl = 1
  · refine ⟨_, _, by rw [expectedReply, hi, ok_bind]; exact if_pos hend, ?_⟩
    exact
      { same := ⟨hsame.addr, hsame.id, hsame.firstTtl, hsame.probes⟩, kept := by simp, path := hpath₀
        sound := by simp, back := by simp, ttl := by simp }
  · refine ⟨_, _, by
      rw [expectedReply, hi, ok_bind]
      exact (if_neg hend).trans (if_pos (.inl hterminal)), ?_⟩
    refine turned_endOfPath (h.setHop i _) ⟨hsame.addr, hsame.id, hsame.firstTtl, hsame.probes⟩
      hdone₀ httl₀ hexpected hresponse fun hdone => ⟨hterminal, ?_⟩
    have hnot : d.ttl ≠ 1 := fun hone => hend ⟨hdone, hone⟩
    change 2 ≤ d.ttl
    omega

def recorded (d : Dest) (now : ℤ) (i : Fin 30) : Dest :=
  Dest.setHop { d with firstResponse := firstReply d } i fun hop => { hop with delay := hop.replyDelay now }

variable {i : Fin 30}

theorem recordReply_eq (hval : (i : ℤ) + 1 = d.ttl) (hi : hopIndex d.ttl = .ok i) : recordReply e a now d.ttl d =
      if a.unexpected e d then unexpectedReply a (recorded d now i)
      else expectedReply a d.ttl (recorded d now i) := by
  have hint : int8 d.ttl = d.ttl := int8_eq (by omega) (by omega)
  rw [recordReply, hi, ok_bind, hint]
  rfl

theorem same_recorded : Same d (recorded d now i) := ⟨rfl, rfl, rfl, rfl⟩

theorem Reached.recorded (h : Reached d) : Reached (recorded d now i) := by
  have hbounds := h.firstReply_bounds
  refine ⟨h.firstTtl, h.ttl, show 0 ≤ firstReply d ∧ firstReply d ≤ 30 by omega, h.noReply, ?_⟩
  intro hdone
  have hback := h.backward hdone
  have hsame : firstReply d = d.firstResponse := by rw [firstReply, if_neg (by omega)]
  change 2 ≤ firstReply d ∧ d.ttl ≤ firstReply d
  rw [hsame]
  exact hback

theorem recordReply_terminal (h : Reached d) (hterminal : a.terminal ≠ 0) :
    ∃ d' m, recordReply e a now d.ttl d = .ok (d', m) ∧ Turned e a d d' m := by
  obtain ⟨i, hi, hval⟩ := hopIndex_eq h.ttl.1 h.ttl.2
  rw [recordReply_eq hval hi]
  cases hunexpected : a.unexpected e d with
  | true =>
    exact turned_unexpected h.recorded same_recorded hunexpected h.firstReply_bounds.1 hterminal
  | false =>
    exact turned_expected h.recorded same_recorded rfl rfl id hunexpected h.firstReply_bounds.1 hterminal

theorem Turned.replied {d₁ : Dest} (h : Turned e a d₁ d' m) (hd : Sound d) (hsame : Same d d₁)
    (hterminal : a.terminal ≠ 0) (hdone : d₁.doneForward = d.doneForward)
    (hpath : InPath d → InPath d₁) (httl : d₁.ttl = hopTtl a d) (hpositive : 1 ≤ d₁.ttl)
    (hmost : d.doneForward = true → d₁.ttl ≤ d.ttl ∨ d₁.ttl = d.ttl + 1 ∧ d.ttl = d.firstTtl ∧ a.embeddedTtl = 0) :
    Replied e a now d d' m where
  same :=
    ⟨h.same.addr.trans hsame.addr, h.same.id.trans hsame.id, h.same.firstTtl.trans hsame.firstTtl,
      h.same.probes.trans hsame.probes⟩
  live := h.sound
  lost := iff_of_false h.kept fun hlate => hterminal hlate.2.1
  path := fun _ hd => h.path (hpath hd)
  wrapped := fun hpast => absurd hpast.2.1 hterminal
  shorter := by
    intro hready hnot
    obtain ⟨hback, hattempts⟩ := h.back hready
    have hunexpected := unexpected_congr (e := e) (a := a) hsame.addr
    rw [work_backward hback, hattempts]
    cases hforward : d.doneForward with
    | false =>
      have := hd.work_ge hforward
      rcases h.ttl hready with ⟨hlow, -⟩ | ⟨hdone₁, -⟩
      · omega
      · exact absurd (hdone₁.symm.trans (hdone.trans hforward)) (by decide)
    | true =>
      have hleft := hd.attempts
      rw [work_backward hforward]
      rcases h.ttl hready with ⟨-, hwhy⟩ | ⟨-, hexp, hone, htwo, hless⟩
      · refine absurd ⟨hforward, ?_⟩ hnot
        rcases hwhy (hdone.trans hforward) with hun | ⟨htwo, hat⟩
        · rw [if_pos (hunexpected.symm.trans hun), if_neg hterminal]
          omega
        · cases hun : a.unexpected e d with
          | true =>
            rw [if_pos rfl, if_neg hterminal]
            omega
          | false => exact ⟨by omega, .inl htwo⟩
      · have hstep : d₁.ttl ≤ d.ttl := by
          rcases hmost hforward with hle | ⟨-, hfirst, hzero⟩
          · exact hle
          · refine absurd ⟨hforward, ?_⟩ hnot
            rw [if_neg (by rw [← hunexpected, hexp]; decide)]
            exact ⟨by omega, .inr ⟨hone, hfirst, hzero⟩⟩
        omega

theorem Sound.reached (h : Sound d) : Reached d where
  firstTtl := h.firstTtl
  ttl := h.ttl
  response := h.response
  noReply := by
    have httl := h.ttl
    cases hdone : d.doneForward with
    | false => exact ⟨(h.forward hdone).noReply.1, (h.forward hdone).noReply.2.2⟩
    | true =>
      rw [(h.backward hdone).2]
      omega
  backward := by
    intro hdone
    have httl := h.ttl
    have := (h.backward hdone).1
    omega

theorem silent_recorded : Silent (recorded d now i) ttl ↔ Silent d ttl := by
  refine exists_congr fun j => and_congr_right fun _ => ?_
  by_cases hji : j = i
  · subst hji
    simp only [recorded, Dest.setHop, update_self]
  · simp only [recorded, Dest.setHop, update_of_ne hji]

section

variable (h : Sound d) (now : ℤ) (i : Fin 30)
include h

theorem Sound.recorded : Sound (recorded d now i) := by
  have httl := h.ttl
  have hbounds := (Sound.reached h).firstReply_bounds
  refine
    { firstTtl := h.firstTtl, ttl := h.ttl, attempts := h.attempts
      response := show 0 ≤ firstReply d ∧ firstReply d ≤ 30 by omega
      forward := ?_, backward := ?_ }
  · intro hforward
    have hf := h.forward hforward
    refine
      { noReply := hf.noReply
        unanswered := fun hnone => absurd (show firstReply d = 0 from hnone) (by omega)
        answered := ?_
        skipped := fun ttl hlater hsilent => ?_
        passed := fun hbelow => silent_recorded.2 (hf.passed hbelow)
        first := hf.first }
    · change firstReply d ≤ d.ttl
      have := hf.answered
      simp only [firstReply]
      split <;> omega
    · have hnot : ¬(TracerouteReplies.recorded d now i).firstResponse = 0 :=
        show ¬firstReply d = 0 by omega
      exact hf.skipped ttl (.inl (hlater.resolve_right hnot)) (silent_recorded.1 hsilent)
  · intro hdone
    have hback := h.backward hdone
    refine ⟨?_, hback.2⟩
    change d.ttl ≤ firstReply d - 1
    rw [firstReply, if_neg (by omega)]
    exact hback.1

theorem work_recorded : work (recorded d now i) ≤ work d := by
  have httl := h.ttl
  have hbounds := (Sound.reached h).firstReply_bounds
  cases hdone : d.doneForward with
  | true =>
    rw [work_backward hdone, work_backward (show (recorded d now i).doneForward = true from hdone)]
    exact le_refl _
  | false =>
    rw [work_forward (show (recorded d now i).doneForward = false from hdone) (show firstReply d ≠ 0 by omega)]
    change 3 * (59 - d.ttl) + (3 - d.attempts) ≤ work d
    by_cases hnone : d.firstResponse = 0
    · rw [work_halving hdone hnone]
      omega
    · rw [work_forward hdone hnone]

theorem exhausted_recorded : Exhausted (recorded d now i) ↔ d.attempts = 2 ∧
      if d.doneForward then d.ttl = 1 else d.firstResponse = 1 ∧ Limit d := by
  have httl := h.ttl
  have hbounds := (Sound.reached h).firstReply_bounds
  have hlimit : Limit (recorded d now i) ↔ Limit d := by
    simp only [Limit, silent_recorded]
    exact Iff.rfl
  refine and_congr_right fun _ => ?_
  change (if d.doneForward then d.ttl = 1 else if firstReply d = 0 then d.ttl = 1
    else firstReply d = 1 ∧ Limit (recorded d now i)) ↔ _
  cases hdone : d.doneForward with
  | true => exact Iff.rfl
  | false =>
    rw [if_neg (by decide), if_neg (by omega), if_neg (by decide), hlimit]
    refine and_congr_left fun hlim => ?_
    by_cases hnone : d.firstResponse = 0
    · -- forward probing cannot end with its first reply
      exfalso
      obtain ⟨hn, htried⟩ := (h.forward hdone).unanswered hnone
      have hfirst := h.firstTtl
      simp only [Limit, Tried] at hlim htried
      omega
    · rw [firstReply, if_neg hnone]

end

theorem replied_endForward {d₂ : Dest} (h : Sound d) (hpast : PastFirst e a d) (hsame : Same d d₂)
    (hlength : uint8 (d₂.ttl - d₂.noReplyCount - 1) = 255)
    (hreply : d₂.firstResponse = firstReply d) :
    ∃ d' m, endForward d₂ = (d', m) ∧ Replied e a now d d' m := by
  have hbounds := (Sound.reached h).firstReply_bounds
  obtain ⟨hunexpected, hterminal, hlast, hwhere⟩ := id hpast
  have hlost : ∀ m, m ≠ Move.lost → (m = .lost ↔ Late e a now d) := by
    intro m hm
    exact iff_of_false hm fun hlate => absurd (hunexpected.symm.trans hlate.1) (by decide)
  obtain ⟨d₃, hd₃⟩ : ∃ d₃ : Dest, d₃ = { d₂ with
      pathLength := uint8 (d₂.ttl - d₂.noReplyCount - 1)
      doneForward := true
      ttl := int8 (d₂.firstResponse - 1) } := ⟨_, rfl⟩
  have hwrapped : d₃.pathLength = 255 := by rw [hd₃, ← hlength]
  have hbelow : d₃.ttl = firstReply d - 1 := by
    rw [hd₃, ← hreply]
    exact int8_eq (by omega) (by omega)
  have hsame₃ : Same d d₃ := by
    rw [hd₃]
    exact ⟨hsame.addr, hsame.id, hsame.firstTtl, hsame.probes⟩
  have hresponse₃ : d₃.firstResponse = firstReply d := by rw [hd₃, ← hreply]
  have hcases := reprobe_cases (d := d₃) (by rw [hsame₃.firstTtl]; exact h.firstTtl) (by rw [hd₃]) (by omega) (by omega)
  rw [show endForward d₂ = d₃.reprobe by rw [hd₃]; rfl]
  rcases hcases with heq | ⟨heq, hlive⟩
  · exact ⟨d₃, .done, heq,
      { same := hsame₃, live := by simp, lost := hlost _ (by decide)
        path := fun hnot => absurd hpast hnot, wrapped := fun _ => hwrapped, shorter := by simp }⟩
  · refine ⟨_, .ready, heq,
      { same := ⟨hsame₃.addr, hsame₃.id, hsame₃.firstTtl, hsame₃.probes⟩
        live := fun _ => hlive, lost := hlost _ (by decide)
        path := fun hnot => absurd hpast hnot, wrapped := fun _ => hwrapped
        shorter := fun _ hnot => absurd ?_ hnot }⟩
    have hpositive : 1 ≤ d₃.ttl := hlive.ttl.1
    cases hdone : d.doneForward with
    | false =>
      rw [hdone, if_neg (by decide)] at hwhere
      rw [firstReply, if_neg (by omega)] at hbelow
      omega
    | true =>
      rw [hdone, if_pos rfl] at hwhere
      refine ⟨hdone, ?_⟩
      rw [if_pos hunexpected, if_pos hterminal]
      exact ⟨hlast, hwhere⟩

theorem replied_unexpected (h : Sound d) (hterminal : a.terminal = 0) (hunexpected : a.unexpected e d = true) :
    ∃ d' m, unexpectedReply a (recorded d now i) = .ok (d', m) ∧ Replied e a now d d' m := by
  obtain ⟨d₁, hd₁⟩ : ∃ d₁ : Dest, d₁ =
      { recorded d now i with errType := uint8 a.type, errCode := uint8 a.code } := ⟨_, rfl⟩
  have hsound : Sound d₁ := by
    rw [hd₁]
    exact { Sound.recorded h now i with
      forward := fun hforward => { (Sound.recorded h now i).forward hforward with } }
  have hwork : work d₁ ≤ work d := by
    rw [hd₁]
    exact work_recorded h now i
  have hexhausted : Exhausted d₁ ↔ PastFirst e a d := by
    rw [PastFirst, ← exhausted_recorded h now i, hd₁]
    simp only [hunexpected, hterminal, true_and]
    exact Iff.rfl
  obtain ⟨j, d₂, k, hval, hcount, hattempt⟩ := incAttemptCounter_cases hsound
  have hsame : Same d d₂ := by
    have hrecorded := hattempt.same
    rw [hd₁] at hrecorded
    exact ⟨hrecorded.addr, hrecorded.id, hrecorded.firstTtl, hrecorded.probes⟩
  have hreply : unexpectedReply a (recorded d now i) =
      if k ≠ 0 then .ok (d₂, .ready) else .ok (endForward d₂) := by
    rw [hd₁] at hcount
    rw [unexpectedReply, if_pos hterminal, hcount, ok_bind]
  rw [hreply]
  by_cases hk : k = 0
  · obtain ⟨httl, hn, hresponse, hattempts⟩ := hattempt.zero hsound hk
    have hlength : uint8 (d₂.ttl - d₂.noReplyCount - 1) = 255 := by
      rw [httl, hn]
      rfl
    have hfirst : d₂.firstResponse = firstReply d := by
      rw [hresponse, hd₁]
      rfl
    obtain ⟨d', m, hend, hreplied⟩ := replied_endForward h (hexhausted.1 ((hattempt.zero_iff hsound).1 hk)) hsame hlength hfirst
    rw [if_neg (not_not.2 hk), hend]
    exact ⟨d', m, rfl, hreplied⟩
  · rw [if_pos hk]
    refine ⟨d₂, .ready, rfl, ?_⟩
    have hpast : ¬PastFirst e a d := fun hp =>
      hk ((hattempt.zero_iff hsound).2 (hexhausted.2 hp))
    have hinPath : InPath d → InPath d₁ := by rw [hd₁]; exact id
    exact
      { same := hsame
        live := fun _ => hattempt.live hsound hval hk
        lost := iff_of_false (by decide) fun hlate =>
          absurd (hunexpected.symm.trans hlate.1) (by decide)
        path := fun _ hpath => hattempt.path (hinPath hpath)
        wrapped := fun hp => absurd hp hpast
        shorter := fun _ _ => (hattempt.shorter hsound hk).trans_le hwork }

def answeredBy (a : Answer) (now : ℤ) (i : Fin 30) (d : Dest) : Dest :=
  (recorded d now i).setHop i fun hop => { hop with reply := .ok, addr := some a.source }

theorem silent_answeredBy (hne : (i : ℤ) + 1 ≠ ttl) : Silent (answeredBy a now i d) ttl ↔ Silent d ttl :=
  (silent_setHop hne).trans silent_recorded

theorem expectedReply_eq (hi : hopIndex d.ttl = .ok i) (hterminal : a.terminal = 0) : expectedReply a d.ttl (recorded d now i) =
      if d.doneForward ∧ d.ttl = 1 then .ok (answeredBy a now i d, .done)
      else if maxHopsInPath ≤ d.ttl then .ok (endOfPath a (answeredBy a now i d))
      else if (d.hop i).replyDelay now < lossTimeoutUs then do
        let d ← incProbeTtl { answeredBy a now i d with noReplyCount := 0, attempts := 0 }
        .ok (d, if d.ttl < 1 then .done else .ready)
      else .ok (answeredBy a now i d, .lost) := by
  have hdelay : ((answeredBy a now i d).hop i).delay = (d.hop i).replyDelay now := by
    simp only [answeredBy, recorded, Dest.setHop, update_self]
  rw [expectedReply, hi, ok_bind]
  change (if d.doneForward ∧ d.ttl = 1 then _ else if a.terminal ≠ 0 ∨ maxHopsInPath ≤ d.ttl then _
    else if ((answeredBy a now i d).hop i).delay < lossTimeoutUs then _ else _) = _
  simp only [hdelay, hterminal, ne_eq, not_true_eq_false, false_or]
  rfl

section

variable (h : Sound d)
include h

theorem replied_inTime (hval : (i : ℤ) + 1 = d.ttl) (hnot : ¬(d.doneForward = true ∧ d.ttl = 1)) (hlow : d.ttl < 30) :
    ∃ d', incProbeTtl { answeredBy a now i d with noReplyCount := 0, attempts := 0 } = .ok d' ∧
      Same d d' ∧ d'.pathLength = d.pathLength ∧ Sound d' ∧ work d' < work d := by
  have httl := h.ttl
  have hattempts := h.attempts
  have hsound := Sound.recorded h now i
  have hbounds := (Sound.reached h).firstReply_bounds
  have hnone : (0 : ℤ) ≤ 0 ∧ (0 : ℤ) ≤ 2 := by decide
  have hresponse : firstReply d ≠ 0 := by omega
  obtain ⟨d₁, hd₁⟩ : ∃ d₁ : Dest, d₁ = { answeredBy a now i d with noReplyCount := 0, attempts := 0 } := ⟨_, rfl⟩
  have hfirst₁ : d₁.firstTtl = d.firstTtl := by rw [hd₁]; rfl
  have httl₁ : d₁.ttl = d.ttl := by rw [hd₁]; rfl
  have hdone₁ : d₁.doneForward = d.doneForward := by rw [hd₁]; rfl
  have hresponse₁ : d₁.firstResponse = firstReply d := by rw [hd₁]; rfl
  have hcount₁ : d₁.noReplyCount = 0 := by rw [hd₁]
  have hattempts₁ : d₁.attempts = 0 := by rw [hd₁]
  have hsame₁ : Same d d₁ := by rw [hd₁]; exact ⟨rfl, rfl, rfl, rfl⟩
  have hpath₁ : d₁.pathLength = d.pathLength := by rw [hd₁]; rfl
  have hsilent₁ : ∀ {ttl : ℤ}, d.ttl ≠ ttl → (Silent d₁ ttl ↔ Silent d ttl) := by
    intro ttl hne
    rw [hd₁]
    exact silent_answeredBy (by omega)
  rw [← hd₁]
  cases hdone : d.doneForward with
  | true =>
    have hmore : d.ttl ≠ 1 := fun hone => hnot ⟨hdone, hone⟩
    have hbelow : d.ttl ≤ firstReply d - 1 := (hsound.backward hdone).1
    refine ⟨_, incProbeTtl_backward (hdone₁.trans hdone) (by omega) (by omega),
      ⟨hsame₁.addr, hsame₁.id, hsame₁.firstTtl, hsame₁.probes⟩, hpath₁, ?_, ?_⟩
    · exact .of_backward (by rw [hfirst₁]; exact h.firstTtl) (hdone₁.trans hdone)
        (by simp only; omega) (by simp only; omega) hnone hcount₁
    · rw [work_backward hdone, work, if_pos (hdone₁.trans hdone)]
      simp only
      omega
  | false =>
    have hf := h.forward hdone
    have hanswered : firstReply d ≤ d.ttl := (hsound.forward hdone).answered
    have hskipped : ∀ ttl, d₁.ttl < ttl → Silent d₁ ttl → Tried d₁.firstTtl ttl := by
      intro ttl hlater hsilent
      rw [httl₁] at hlater
      rw [hfirst₁]
      exact hf.skipped ttl (.inl hlater) ((hsilent₁ hlater.ne).1 hsilent)
    have hpassed : d₁.ttl < d₁.firstTtl → Silent d₁ d₁.firstTtl := by
      intro hbelow
      rw [httl₁, hfirst₁] at hbelow
      rw [hfirst₁]
      exact (hsilent₁ hbelow.ne).2 (hf.passed hbelow)
    have hfirst : 3 ≤ d₁.firstTtl ∧ d₁.firstTtl ≤ 7 := by rw [hfirst₁]; exact h.firstTtl
    obtain ⟨ttl, count, hadvances, hmove⟩ := incProbeTtl_forward hfirst (hdone₁.trans hdone)
      (by omega) (by omega) (by omega) hskipped
    have hlt := hadvances.lt
    have hbound : count ≤ 4 ∧ ttl ≤ 30 := by
      cases hadvances with
      | next hnext => omega
      | limit hsil hlast => omega
      | skip hsil hmore hnext =>
        have hsmall := ((hskipped _ (by omega) hsil).next hfirst (by omega)).1
        omega
    have hforward := hadvances.forward (by omega) (by omega) (by omega) hskipped hpassed hbound.1
    refine ⟨_, hmove, ⟨hsame₁.addr, hsame₁.id, hsame₁.firstTtl, hsame₁.probes⟩, hpath₁, ?_, ?_⟩
    · exact
        { firstTtl := hfirst, ttl := by simp only; omega, attempts := hnone
          response := by simp only; omega, forward := fun _ => hforward
          backward := fun hback => absurd (hdone.symm.trans (hdone₁.symm.trans hback)) (by decide) }
    · have hwork := work_recorded h now i
      rw [work_forward (show (recorded d now i).doneForward = false from hdone) (show firstReply d ≠ 0 from hresponse)] at hwork
      change 3 * (59 - d.ttl) + (3 - d.attempts) ≤ work d at hwork
      rw [work, if_neg (by simp [hdone₁, hdone]), if_neg (by simp only; omega)]
      simp only
      omega

theorem replied_endOfPath (hlong : maxHopsInPath ≤ d.ttl) (hexpected : a.unexpected e d = false) :
    ∃ d' m, endOfPath a (answeredBy a now i d) = (d', m) ∧ Replied e a now d d' m := by
  have hthirty : 30 ≤ d.ttl := hlong
  have hforward : d.doneForward = false := by
    rw [Bool.eq_false_iff]
    intro hdone
    have hback := h.backward hdone
    have hresponse := h.response
    omega
  have hreached : Reached (answeredBy a now i d) := (Sound.reached h).recorded.setHop i _
  have hsame : Same d (answeredBy a now i d) := ⟨rfl, rfl, rfl, rfl⟩
  have hturned := turned_endOfPath hreached hsame rfl rfl hexpected (Sound.reached h).firstReply_bounds.1
    fun hdone => absurd (hforward.symm.trans hdone) (by decide)
  obtain ⟨d', m, hresult⟩ : ∃ d' m, endOfPath a (answeredBy a now i d) = (d', m) := ⟨_, _, rfl⟩
  rw [hresult] at hturned
  refine ⟨d', m, hresult, ?_⟩
  refine
    { same := hturned.same, live := hturned.sound, path := fun _ => hturned.path
      wrapped := fun hp => absurd (hexpected.symm.trans hp.1) (by decide)
      lost := iff_of_false hturned.kept fun hlate => absurd hlate.2.2.1 (not_lt.2 hlong)
      shorter := ?_ }
  intro hready _
  obtain ⟨hback, hattempts⟩ := hturned.back hready
  have hleft := h.work_ge hforward
  rw [work_backward hback, hattempts]
  rcases hturned.ttl hready with ⟨hlow, -⟩ | ⟨hdone, -⟩
  · omega
  · exact absurd (hforward.symm.trans hdone) (by decide)

theorem replied_expected (hval : (i : ℤ) + 1 = d.ttl) (hi : hopIndex d.ttl = .ok i)
    (hterminal : a.terminal = 0) (hexpected : a.unexpected e d = false) :
    ∃ d' m, expectedReply a d.ttl (recorded d now i) = .ok (d', m) ∧ Replied e a now d d' m := by
  have httl := h.ttl
  have hsame : Same d (answeredBy a now i d) := ⟨rfl, rfl, rfl, rfl⟩
  have hpast : ¬PastFirst e a d := fun hp => absurd (hexpected.symm.trans hp.1) (by decide)
  rw [expectedReply_eq hi hterminal]
  by_cases hend : d.doneForward = true ∧ d.ttl = 1
  · rw [if_pos hend]
    exact ⟨_, _, rfl,
      { same := hsame, live := by simp, path := fun _ => id, wrapped := fun hp => absurd hp hpast
        lost := iff_of_false (by decide) fun hlate => hlate.2.2.2.1 hend
        shorter := by simp }⟩
  rw [if_neg hend]
  by_cases hlong : maxHopsInPath ≤ d.ttl
  · rw [if_pos hlong]
    obtain ⟨d', m, hend, hreplied⟩ := replied_endOfPath h hlong hexpected
    rw [hend]
    exact ⟨d', m, rfl, hreplied⟩
  rw [if_neg hlong]
  have hlow : d.ttl < 30 := not_le.1 hlong
  by_cases hdelay : (d.hop i).replyDelay now < lossTimeoutUs
  · rw [if_pos hdelay]
    obtain ⟨d', hmove, hsame', hpath, hlive, hshorter⟩ :=
      replied_inTime h hval hend hlow
    have hpositive := hlive.ttl
    have hready : (if d'.ttl < 1 then Move.done else Move.ready) = .ready :=
      if_neg (by omega)
    rw [hmove, ok_bind, hready]
    refine ⟨d', .ready, rfl, ?_⟩
    refine
      { same := hsame', live := fun _ => hlive, wrapped := fun hp => absurd hp hpast
        path := fun _ hd => ?_, shorter := fun _ _ => hshorter
        lost := iff_of_false (by decide) ?_ }
    · rintro ⟨-, -, -, -, j, hj, hover⟩
      obtain rfl : j = i := by
        apply Fin.ext
        omega
      exact absurd hdelay (not_lt.2 hover)
    · rw [InPath, hpath]
      exact hd
  · rw [if_neg hdelay]
    exact ⟨_, _, rfl,
      { same := hsame, live := by simp, path := fun _ => id, wrapped := fun hp => absurd hp hpast
        lost := iff_of_true rfl ⟨hexpected, hterminal, hlow, hend, i, hval, not_lt.1 hdelay⟩
        shorter := by simp }⟩

theorem recordReply_replied (hhop : ¬(a.terminal ≠ 0 ∧ d.ttl = d.firstTtl)) :
    ∃ d' m, recordReply e a now d.ttl d = .ok (d', m) ∧ Replied e a now d d' m := by
  by_cases hterminal : a.terminal = 0
  · obtain ⟨i, hi, hval⟩ := hopIndex_eq h.ttl.1 h.ttl.2
    rw [recordReply_eq hval hi]
    cases hunexpected : a.unexpected e d with
    | true => exact replied_unexpected h hterminal hunexpected
    | false => exact replied_expected h hval hi hterminal hunexpected
  · obtain ⟨d', m, heq, hturned⟩ := recordReply_terminal (Sound.reached h) hterminal
    refine ⟨d', m, heq, hturned.replied h ⟨rfl, rfl, rfl, rfl⟩ hterminal rfl id ?_ h.ttl.1 ?_⟩
    · rw [hopTtl, if_neg hhop]
    · exact fun _ => .inl (le_refl _)

theorem reached_quoted {f : Hop → Hop} (hfirst : d.ttl = d.firstTtl) (hrange : 1 ≤ ttl ∧ ttl ≤ d.firstTtl + 1) :
    Reached (Dest.setHop { d with ttl := ttl } i f) := by
  have hd := Sound.reached h
  have hlow := h.firstTtl
  have hcount : d.noReplyCount = 0 := by
    cases hdone : d.doneForward with
    | false => exact (h.forward hdone).first hfirst
    | true => exact (h.backward hdone).2
  refine ⟨hd.firstTtl, ?_, hd.response, ?_, fun hdone => ?_⟩
  · change 1 ≤ ttl ∧ ttl ≤ 30
    omega
  · change 0 ≤ d.noReplyCount ∧ d.noReplyCount ≤ ttl - 1
    omega
  · have hback := (h.backward hdone).1
    change 2 ≤ d.firstResponse ∧ ttl ≤ d.firstResponse
    omega

theorem processReply_first (hterminal : a.terminal ≠ 0) (hfirst : d.ttl = d.firstTtl) (hquoted : 0 ≤ a.embeddedTtl) :
    BelowFirst a d ∧ processReply e a now d = .error (.hop (-1)) ∨
      ¬BelowFirst a d ∧ ∃ d' m, processReply e a now d = .ok (d', m) ∧ Replied e a now d d' m := by
  have hrange := h.firstTtl
  have hhop : hopTtl a d = d.firstTtl - a.embeddedTtl + 1 := by
    rw [hopTtl, if_pos ⟨hterminal, hfirst⟩]
  rw [processReply, if_pos ⟨hterminal, hfirst⟩]
  by_cases hbogus : d.firstTtl - a.embeddedTtl + 1 < 0
  · right
    refine ⟨fun hbelow => ?_, _, _, if_pos (.inl hbogus), ?_⟩
    · have := hbelow.2.2
      omega
    · exact
        { same := ⟨rfl, rfl, rfl, rfl⟩, live := by simp, shorter := by simp
          lost := iff_of_false (by decide) fun hlate => hterminal hlate.2.1
          path := fun _ _ => show (0 : ℤ) ≤ 0 ∧ (0 : ℤ) ≤ 30 by decide
          wrapped := fun hpast => absurd hpast.2.1 hterminal }
  have hgood : ¬(d.firstTtl - a.embeddedTtl + 1 < 0 ∨ maxHopsInPath < d.firstTtl - a.embeddedTtl + 1) := by
    simp only [maxHopsInPath]
    omega
  simp only [if_neg hgood]
  by_cases hzero : d.firstTtl - a.embeddedTtl + 1 = 0
  · left
    refine ⟨⟨hterminal, hfirst, by omega⟩, ?_⟩
    rw [hzero]
    rfl
  · right
    refine ⟨fun hbelow => hzero (by have := hbelow.2.2; omega), ?_⟩
    obtain ⟨i, hi, -⟩ := hopIndex_eq (show 1 ≤ d.firstTtl - a.embeddedTtl + 1 by omega) (by omega)
    obtain ⟨j, hj, -⟩ := hopIndex_eq (show 1 ≤ d.firstTtl by omega) (by omega)
    have hint : int8 (d.firstTtl - a.embeddedTtl + 1) = d.firstTtl - a.embeddedTtl + 1 :=
      int8_eq (by omega) (by omega)
    obtain ⟨d₁, hd₁⟩ : ∃ d₁ : Dest, d₁ = Dest.setHop
        { d with ttl := d.firstTtl - a.embeddedTtl + 1 } i
        fun hop => { hop with timeSent := (d.hop j).timeSent } := ⟨_, rfl⟩
    have httl₁ : d₁.ttl = hopTtl a d := by rw [hd₁, hhop]; rfl
    have hreached : Reached d₁ := by
      rw [hd₁]
      exact reached_quoted h hfirst (by omega)
    obtain ⟨d', m, heq, hturned⟩ := recordReply_terminal (e := e) hreached hterminal
    refine ⟨d', m, ?_, hturned.replied h ?_ hterminal ?_ ?_ httl₁ (by omega) ?_⟩
    · rw [hi, ok_bind, hj, ok_bind, hint]
      rw [httl₁, hhop, hd₁] at heq
      exact heq
    · rw [hd₁]
      exact ⟨rfl, rfl, rfl, rfl⟩
    · rw [hd₁]
      rfl
    · rw [hd₁]
      exact id
    · intro _
      omega

end

theorem processReply_cases (e : Endian) (now : ℤ) (h : Sound d) (hquoted : 0 ≤ a.embeddedTtl) :
    BelowFirst a d ∧ processReply e a now d = .error (.hop (-1)) ∨
      ¬BelowFirst a d ∧ ∃ d' m, processReply e a now d = .ok (d', m) ∧ Replied e a now d d' m := by
  by_cases hhop : a.terminal ≠ 0 ∧ d.ttl = d.firstTtl
  · exact processReply_first h hhop.1 hhop.2 hquoted
  · right
    refine ⟨fun hbelow => hhop ⟨hbelow.1, hbelow.2.1⟩, ?_⟩
    rw [processReply, if_neg hhop]
    exact recordReply_replied h hhop

end

end Amplet.TracerouteReplies
