import Amplet.TracerouteRefinement
import Amplet.TracerouteReplies

/-!
# Runs of the test

What every callback does to the queues, and what is kept in every state that a
run of the test reaches: each destination is in one list or was lost, and those
that are probed are probed soundly.
-/

namespace Amplet.TracerouteRuns
open List Function Option Failing SocketAddress TracerouteProbe TracerouteLists TracerouteQueues TracerouteRefinement
open TracerouteSound TracerouteReplies

section Items

variable {d d' : Dest}

structure Expired (d d' : Dest) (m : Move) : Prop where
  same : Same d d'
  kept : m ≠ .lost
  live : m = .ready → Sound d'
  path : InPath d → InPath d'
  shorter : m = .ready → work d' < work d

theorem processTimeout_cases (h : Sound d) : ∃ d' m, processTimeout d = .ok (d', m) ∧ Expired d d' m := by
  obtain ⟨i, d', k, hval, hcount, hattempt⟩ := incAttemptCounter_cases h
  refine ⟨d', if k ≠ 0 then .ready else .done, by rw [processTimeout, hcount, ok_bind], ?_⟩
  by_cases hk : k = 0
  · rw [if_neg (not_not.2 hk)]
    exact
      { same := hattempt.same, kept := by decide, live := by simp, path := hattempt.path
        shorter := by simp }
  · rw [if_pos hk]
    exact
      { same := hattempt.same, kept := by decide, live := fun _ => hattempt.live h hval hk
        path := hattempt.path, shorter := fun _ => hattempt.shorter h hk }

structure Probed (r : Sending) (d d' : Dest) (sent : Bool) : Prop where
  live : sent = true → Sound d'
  path : InPath d → InPath d'
  work : sent = true → work d' = work d
  reached : sent = true → r.reaches d.addr = true

theorem silent_timeSent {i : Fin 30} {time ttl : ℤ} :
    Silent (d.setHop i fun hop => { hop with timeSent := time }) ttl ↔ Silent d ttl := by
  refine exists_congr fun j => and_congr_right fun _ => ?_
  by_cases hji : j = i
  · subst hji
    simp only [Dest.setHop, update_self]
  · simp only [Dest.setHop, update_of_ne hji]

theorem Sound.timeSent (h : Sound d) (i : Fin 30) (time probes : ℤ) :
    Sound { d.setHop i fun hop => { hop with timeSent := time } with probes := probes } :=
  { h with
    forward := fun hforward =>
      { h.forward hforward with
        skipped := fun ttl hlater hsilent =>
          (h.forward hforward).skipped ttl hlater (silent_timeSent.1 hsilent)
        passed := fun hbelow => silent_timeSent.2 ((h.forward hforward).passed hbelow) } }

theorem sendProbe_cases (r : Sending) (h : Sound d) : ∃ d' sent, sendProbe r d = .ok (d', sent) ∧ Probed r d d' sent := by
  obtain ⟨i, hi, -⟩ := hopIndex_eq h.ttl.1 h.ttl.2
  rw [sendProbe]
  by_cases hreaches : r.reaches d.addr = true
  · rw [if_pos hreaches, hi, ok_bind]
    cases hwhole : r.whole with
    | true =>
      exact ⟨_, _, rfl,
        { live := fun _ => Sound.timeSent h i _ _, path := id, work := fun _ => rfl
          reached := fun _ => hreaches }⟩
    | false =>
      exact ⟨_, _, rfl,
        { live := by simp, path := fun _ => show (0 : ℤ) ≤ 5 ∧ (5 : ℤ) ≤ 30 by decide
          work := by simp, reached := by simp }⟩
  · rw [if_neg hreaches]
    exact ⟨d, false, rfl, { live := by simp, path := id, work := by simp, reached := by simp }⟩

theorem firstTtl_bounds (t : Target) : 3 ≤ t.firstTtl ∧ t.firstTtl ≤ 7 := by
  have hrandom := t.random.isLt
  simp only [Target.firstTtl, minInitialTtl, maxInitialTtl]
  omega

theorem sound_item (t : Target) (id : ℕ) : Sound (t.item id) := by
  have hfirst := firstTtl_bounds t
  have hsilent : ∀ ttl, ¬Silent (t.item id) ttl := by
    rintro ttl ⟨i, -, hreply⟩
    exact absurd hreply (by simp [Target.item])
  refine
    { firstTtl := hfirst, ttl := ?_, attempts := show (0 : ℤ) ≤ 0 ∧ (0 : ℤ) ≤ 2 by decide
      response := show (0 : ℤ) ≤ 0 ∧ (0 : ℤ) ≤ 30 by decide
      forward := fun _ => ?_, backward := fun hdone => absurd hdone (by simp [Target.item]) }
  · change 1 ≤ t.firstTtl ∧ t.firstTtl ≤ 30
    omega
  · refine
      { noReply := ?_, unanswered := fun _ => ⟨rfl, .inl rfl⟩, answered := ?_
        skipped := fun ttl _ h => absurd h (hsilent ttl)
        passed := fun hbelow => absurd hbelow (lt_irrefl _), first := fun _ => rfl }
    · change (0 : ℤ) ≤ 0 ∧ (0 : ℤ) ≤ 4 ∧ (0 : ℤ) ≤ t.firstTtl - 1
      omega
    · change (0 : ℤ) ≤ t.firstTtl
      omega

theorem work_item (t : Target) (id : ℕ) : work (t.item id) ≤ 204 := by
  have hfirst := firstTtl_bounds t
  rw [work_halving rfl rfl]
  change 3 * (60 + t.firstTtl) + (3 - 0) ≤ 204
  omega

end Items

section Steps

def Queues.replyTo (e : Endian) (q : Queues) : Event → Option (ℕ × Answer × ℤ)
  | .recv (some r) =>
    match readPacket e q.ident q.count r.source r.packet with
    | .ok (some a) => (q.outstanding.find? fun p => q.Answers a p).map fun p => (p, a, r.now)
    | _ => none
  | _ => none

inductive Effect (e : Endian) (q : Queues) : Event → Queues → Prop
  | nothing {event : Event} (hreply : Queues.replyTo e q event = none)
      (hsilent : ∀ r, event ≠ .recv (some r)) (hidle : ∀ r, event = .send r → q.ready = []) :
      Effect e q event q
  | ignored {r : Received} (hreply : Queues.replyTo e q (.recv (some r)) = none) :
      Effect e q (.recv (some r)) q.stopIfIdle
  | sent {r : Sending} {p : ℕ} {ready : List ℕ} {d : Dest} (hready : q.ready = p :: ready)
      (hprobed : Probed r (q.item p) d true) :
      Effect e q (.send r)
        { q with
          ready := ready
          outstanding := q.outstanding ++ [p]
          item := update q.item p d }
  | refused {r : Sending} {p : ℕ} {ready : List ℕ} {d : Dest} (hready : q.ready = p :: ready)
      (hprobed : Probed r (q.item p) d false) :
      Effect e q (.send r) ({ q with ready := ready }.settle p d .done).stopIfIdle
  | replied {r : Received} {p : ℕ} {a : Answer} {d : Dest} {m : Move}
      (hreply : Queues.replyTo e q (.recv (some r)) = some (p, a, r.now)) (hp : p ∈ q.outstanding)
      (hhop : ¬BelowFirst a (q.item p)) (hreplied : Replied e a r.now (q.item p) d m) :
      Effect e q (.recv (some r)) ({ q with outstanding := q.outstanding.erase p }.settle p d m).stopIfIdle
  | expired {p : ℕ} {rest : List ℕ} {d : Dest} {m : Move} (houtstanding : q.outstanding = p :: rest)
      (hexpired : Expired (q.item p) d m) :
      Effect e q .timeout ({ q with outstanding := rest }.settle p d m).stopIfIdle

theorem readPacket_ok (e : Endian) (ident count : ℕ) {r : Received} (h : r.Delivered) :
    ∃ o, readPacket e ident count r.source r.packet = .ok o := by
  have hembedded : ∃ o, getEmbeddedPacket r.source r.packet = .ok o := by
    rw [Received.Delivered] at h
    cases hsource : r.source with
    | inet addr =>
      rw [hsource] at h
      simp only [getEmbeddedPacket, getEmbeddedIpv4Packet, if_pos h]
      repeat' split
      all_goals exact ⟨_, rfl⟩
    | inet6 addr => exact ⟨_, rfl⟩
    | other family hfamily => exact ⟨_, rfl⟩
  obtain ⟨o, ho⟩ := hembedded
  rw [readPacket, ho, ok_bind]
  cases o with
  | none => exact ⟨_, rfl⟩
  | some embedded => exact ⟨_, rfl⟩

theorem readPacket_quoted {e : Endian} {ident count : ℕ} {source : SockAddr} {packet : Packet}
    {a : Answer} (h : readPacket e ident count source packet = .ok (some a)) : 0 ≤ a.embeddedTtl := by
  cases hembedded : getEmbeddedPacket source packet with
  | error fault =>
    rw [readPacket, hembedded, error_bind] at h
    cases h
  | ok o =>
    rw [readPacket, hembedded, ok_bind] at h
    cases o with
    | none => cases h
    | some embedded =>
      cases hindex : getIndex e source packet embedded ident count with
      | none =>
        simp only [hindex, map_none] at h
        cases h
      | some index =>
        simp only [hindex, map_some] at h
        cases h
        cases source with
        | inet addr => exact Int.natCast_nonneg _
        | inet6 addr => exact Int.natCast_nonneg _
        | other family hfamily => cases hembedded

variable {e : Endian} {q : Queues} {event : Event}

theorem step_cases (hsound : ∀ p, p ∈ q.ready ∨ p ∈ q.outstanding → Sound (q.item p))
    (hdelivered : ∀ r, event = .recv (some r) → r.Delivered)
    (htimeout : event = .timeout → q.outstanding ≠ []) :
    (∃ q', q.step e event = .ok q' ∧ Effect e q event q') ∨
      ∃ p a now, Queues.replyTo e q event = some (p, a, now) ∧ BelowFirst a (q.item p) ∧ q.step e event = .error (.hop (-1)) := by
  cases event with
  | send r =>
    left
    cases hready : q.ready with
    | nil =>
      refine ⟨q, ?_, .nothing rfl (by simp) fun _ _ => hready⟩
      rw [Queues.step, Queues.send, hready]
    | cons p ready =>
      obtain ⟨d, sent, hsend, hprobed⟩ :=
        sendProbe_cases r (hsound p (.inl (by rw [hready]; exact mem_cons_self ..)))
      rw [Queues.step, Queues.send]
      simp only [hready, hsend, ok_bind]
      cases sent with
      | true => exact ⟨_, rfl, .sent hready hprobed⟩
      | false => exact ⟨_, rfl, .refused hready hprobed⟩
  | recv received =>
    cases received with
    | none => exact .inl ⟨q, rfl, .nothing rfl (by simp) (by simp)⟩
    | some r =>
      obtain ⟨o, ho⟩ := readPacket_ok e q.ident q.count (hdelivered r rfl)
      rw [Queues.step, Queues.recv, ho, ok_bind]
      cases o with
      | none =>
        refine .inl ⟨_, rfl, .ignored ?_⟩
        simp only [Queues.replyTo, ho]
      | some a =>
        simp only [Queues.reply]
        cases hfind : q.outstanding.find? fun p => q.Answers a p with
        | none =>
          refine .inl ⟨_, rfl, .ignored ?_⟩
          simp only [Queues.replyTo, ho, hfind, map_none]
        | some p =>
          have hp : p ∈ q.outstanding := mem_of_find?_eq_some hfind
          have hreply : Queues.replyTo e q (.recv (some r)) = some (p, a, r.now) := by
            simp only [Queues.replyTo, ho, hfind, map_some]
          have hcases := processReply_cases e r.now (hsound p (.inr hp)) (readPacket_quoted ho)
          rcases hcases with ⟨hbelow, hfault⟩ | ⟨hhop, d, m, heq, hreplied⟩
          · refine .inr ⟨p, a, r.now, hreply, hbelow, ?_⟩
            simp only [hfault, error_bind]
          · refine .inl ⟨_, ?_, .replied hreply hp hhop hreplied⟩
            simp only [heq, ok_bind]
  | timeout =>
    obtain ⟨p, rest, houtstanding⟩ := exists_cons_of_ne_nil (htimeout rfl)
    obtain ⟨d, m, heq, hexpired⟩ :=
      processTimeout_cases (hsound p (.inr (by rw [houtstanding]; exact mem_cons_self ..)))
    left
    rw [Queues.step, Queues.timeout]
    simp only [houtstanding, heq, ok_bind]
    exact ⟨_, rfl, .expired houtstanding hexpired⟩

end Steps

section Invariant

structure Tracks (c : Config) (q : Queues) (lost : List ℕ) : Prop where
  count : q.count = c.targets.length
  all : (q.all ++ lost).Perm (range c.targets.length)
  sound : ∀ p, p ∈ q.ready ∨ p ∈ q.outstanding → Sound (q.item p)
  fresh : ∀ p ∈ q.pending, ∃ t : Target, q.item p = t.item p

variable {e : Endian} {c : Config} {q q' : Queues} {lost : List ℕ} {event : Event} {p : ℕ}

theorem Tracks.stopIfIdle (h : Tracks c q lost) : Tracks c q.stopIfIdle lost := { h with }

theorem Tracks.lost_eq_nil_iff (h : Tracks c q lost) : lost = [] ↔ q.all.Perm (range c.targets.length) := by
  constructor
  · rintro rfl
    simpa using h.all
  · intro hall
    have hlength := h.all.length_eq
    rw [length_append, hall.length_eq] at hlength
    exact eq_nil_of_length_eq_zero (by omega)

structure Holds (c : Config) (q : Queues) (p : ℕ) (lost : List ℕ) : Prop where
  count : q.count = c.targets.length
  all : (p :: (q.all ++ lost)).Perm (range c.targets.length)
  sound : ∀ p, p ∈ q.ready ∨ p ∈ q.outstanding → Sound (q.item p)
  fresh : ∀ p ∈ q.pending, ∃ t : Target, q.item p = t.item p

theorem Holds.not_mem (h : Holds c q p lost) : p ∉ q.all := by
  have hnodup := h.all.nodup_iff.2 nodup_range
  exact fun hmem => (nodup_cons.1 hnodup).1 (mem_append_left _ hmem)

theorem Holds.settle {d : Dest} {m : Move} (h : Holds c q p lost) (hlive : m = .ready → Sound d) :
    Tracks c (q.settle p d m) (if m = .lost then p :: lost else lost) := by
  obtain ⟨hpending, hready, houtstanding, -⟩ := Queues.not_mem_all.1 h.not_mem
  obtain ⟨hcount, hall, hsound, hfresh⟩ := h
  have hother : ∀ p', p' ≠ p → (q.settle p d m).item p' = q.item p' :=
    fun p' hne => Queues.item_settle_of_ne q d m hne
  refine { count := (Queues.count_settle ..).trans hcount, all := ?_, sound := ?_, fresh := ?_ }
  · refine (Perm.append_right _ (Queues.all_settle q p d m)).trans ?_
    by_cases hm : m = .lost
    · rw [if_pos hm, if_pos hm]
      exact perm_middle.trans hall
    · rw [if_neg hm, if_neg hm]
      exact hall
  · intro p' hp'
    rw [Queues.outstanding_settle] at hp'
    by_cases hsame : p' = p
    · subst hsame
      cases m with
      | ready =>
        simp only [Queues.settle, update_self]
        exact hlive rfl
      | done =>
        have hin := hp'.resolve_right houtstanding
        rcases mem_append.1 hin with hold | hnew
        · exact absurd hold hready
        · exact absurd (mem_of_mem_take hnew) hpending
      | lost => exact absurd (hp'.resolve_right houtstanding) hready
    · rw [hother p' hsame]
      rcases hp' with hin | hin
      · cases m with
        | ready =>
          rcases mem_append.1 hin with hold | hnew
          · exact hsound p' (.inl hold)
          · exact absurd (mem_singleton.1 hnew) hsame
        | done =>
          rcases mem_append.1 hin with hold | hnew
          · exact hsound p' (.inl hold)
          · obtain ⟨t, ht⟩ := hfresh p' (mem_of_mem_take hnew)
            rw [ht]
            exact sound_item t p'
        | lost => exact hsound p' (.inl hin)
      · exact hsound p' (.inr hin)
  · intro p' hp'
    have hold : p' ∈ q.pending := by
      cases m with
      | ready => exact hp'
      | done => exact mem_of_mem_tail hp'
      | lost => exact hp'
    rw [hother p' (ne_of_mem_of_not_mem hold hpending)]
    exact hfresh p' hold

def LateReply (e : Endian) (q : Queues) (event : Event) : Prop :=
  ∃ p a now, Queues.replyTo e q event = some (p, a, now) ∧ Late e a now (q.item p)

theorem not_lateReply (h : Queues.replyTo e q event = none) : ¬LateReply e q event := by
  rintro ⟨p, a, now, hsome, -⟩
  rw [h] at hsome
  cases hsome

section

variable (h : Tracks c q lost)
include h

theorem Tracks.popReady {ready : List ℕ} (hready : q.ready = p :: ready) : Holds c { q with ready := ready } p lost where
  count := h.count
  all := (Perm.append_right lost (Queues.perm_popReady hready)).symm.trans h.all
  sound := by
    intro p' hp'
    refine h.sound p' (hp'.imp_left fun hin => ?_)
    rw [hready]
    exact mem_cons_of_mem p hin
  fresh := h.fresh

theorem Tracks.erase (hp : p ∈ q.outstanding) : Holds c { q with outstanding := q.outstanding.erase p } p lost where
  count := h.count
  all := (Perm.append_right lost (Queues.perm_erase hp)).symm.trans h.all
  sound := fun p' hp' => h.sound p' (hp'.imp_right mem_of_mem_erase)
  fresh := h.fresh

theorem Tracks.popOutstanding {rest : List ℕ} (houtstanding : q.outstanding = p :: rest) :
    Holds c { q with outstanding := rest } p lost := by
  have hholds := h.erase (p := p) (by rw [houtstanding]; exact mem_cons_self ..)
  rwa [houtstanding, erase_cons_head] at hholds

theorem Tracks.sent {ready : List ℕ} {d : Dest} (hready : q.ready = p :: ready) (hd : Sound d) : Tracks c
      { q with
        ready := ready
        outstanding := q.outstanding ++ [p]
        item := update q.item p d }
      lost := by
  have hholds := h.popReady hready
  have hperm := Queues.perm_appendOutstanding (q := { q with ready := ready }) (p := p)
  refine { count := h.count, all := ?_, sound := ?_, fresh := ?_ }
  · exact (Perm.append_right lost hperm).trans hholds.all
  · intro p' hp'
    change Sound (update q.item p d p')
    by_cases hsame : p' = p
    · rw [hsame, update_self]
      exact hd
    · rw [update_of_ne hsame]
      refine hholds.sound p' (hp'.imp_right fun hin => ?_)
      exact (mem_append.1 hin).resolve_right fun hnew => hsame (mem_singleton.1 hnew)
  · intro p' hp'
    obtain ⟨t, ht⟩ := h.fresh p' hp'
    refine ⟨t, ?_⟩
    change update q.item p d p' = _
    rw [update_of_ne (ne_of_mem_of_not_mem hp' (Queues.not_mem_all.1 hholds.not_mem).1), ht]

theorem Tracks.step (heffect : Effect e q event q') : ∃ lost', Tracks c q' lost' ∧ (LateReply e q event → lost' ≠ []) ∧
      (¬LateReply e q event → lost' = lost) := by
  cases heffect with
  | nothing hreply hsilent hidle =>
    exact ⟨lost, h, fun hlate => absurd hlate (not_lateReply hreply), fun _ => rfl⟩
  | ignored hreply =>
    exact ⟨lost, h.stopIfIdle, fun hlate => absurd hlate (not_lateReply hreply), fun _ => rfl⟩
  | sent hready hprobed =>
    exact ⟨lost, h.sent hready (hprobed.live rfl), fun hlate => absurd hlate (not_lateReply rfl), fun _ => rfl⟩
  | refused hready hprobed =>
    exact ⟨lost, ((h.popReady hready).settle (m := .done) (by simp)).stopIfIdle,
      fun hlate => absurd hlate (not_lateReply rfl), fun _ => rfl⟩
  | replied hreply hp hhop hreplied =>
    refine ⟨_, ((h.erase hp).settle hreplied.live).stopIfIdle, ?_, ?_⟩
    · rintro ⟨p', a', now', hsome, hlate⟩
      obtain ⟨rfl, rfl, rfl⟩ : _ ∧ _ ∧ _ := by simpa using hreply.symm.trans hsome
      rw [if_pos (hreplied.lost.2 hlate)]
      exact cons_ne_nil _ _
    · intro hnot
      rw [if_neg fun hm => hnot ⟨_, _, _, hreply, hreplied.lost.1 hm⟩]
  | expired houtstanding hexpired =>
    have hsettled := (h.popOutstanding houtstanding).settle hexpired.live
    rw [if_neg hexpired.kept] at hsettled
    exact ⟨lost, hsettled.stopIfIdle, fun hlate => absurd hlate (not_lateReply rfl), fun _ => rfl⟩

end

theorem Effect.not_belowFirst {a : Answer} {now : ℤ} (h : Effect e q event q')
    (hreply : Queues.replyTo e q event = some (p, a, now)) : ¬BelowFirst a (q.item p) := by
  cases h with
  | nothing hnone | ignored hnone => cases hnone.symm.trans hreply
  | sent | refused | expired => cases hreply
  | replied hsome hp hhop hreplied =>
    obtain ⟨rfl, rfl, rfl⟩ : _ ∧ _ ∧ _ := by simpa using hsome.symm.trans hreply
    exact hhop

theorem Tracks.initial (c : Config) : Tracks c (Queues.initial c) [] := by
  obtain ⟨hcreating, -⟩ := runTraceroute_represents c
  refine
    { count := Queues.count_initial c, all := ?_, sound := ?_, fresh := ?_ }
  · rw [append_nil]
    exact hcreating.all
  · intro p hp
    have hin : p ∈ (Queues.initial c).all := by
      simp only [Queues.all, mem_append]
      tauto
    obtain ⟨t, ht⟩ := hcreating.item p hin
    rw [ht]
    exact sound_item t p
  · intro p hp
    refine hcreating.item p ?_
    simp only [Queues.all, mem_append]
    tauto

theorem Tracks.inHops (h : Tracks c q lost) : q.InHops := by
  intro p hp
  have httl := (h.sound p (.inr hp)).ttl
  obtain ⟨i, hi, -⟩ := hopIndex_eq httl.1 httl.2
  exact ⟨i, hi⟩

end Invariant

section Runs

def ProbeList.replyTo (e : Endian) (s : ProbeList) : Event → Option (ℕ × Answer × ℤ)
  | .recv (some r) =>
    match readPacket e s.ident s.count r.source r.packet with
    | .ok (some a) =>
      (s.lists.findOutstandingItem (fun p => s.Answers a p) s.count).1.map fun p => (p, a, r.now)
    | _ => none
  | _ => none

variable {e : Endian} {c : Config} {s : ProbeList} {q : Queues} {lost : List ℕ} {event : Event}
  {steps : List (ProbeList × Event)} {o : Except Fault ProbeList}

theorem replyTo_eq (h : Represents s q) (event : Event) : ProbeList.replyTo e s event = Queues.replyTo e q event := by
  cases event with
  | send r => rfl
  | timeout => rfl
  | recv received =>
    cases received with
    | none => rfl
    | some r =>
      simp only [ProbeList.replyTo, Queues.replyTo, h.ident, h.count]
      cases readPacket e q.ident q.count r.source r.packet with
      | error fault => rfl
      | ok answer =>
        cases answer with
        | none => rfl
        | some a =>
          have hanswers : (fun p => decide (s.Answers a p)) = fun p => decide (q.Answers a p) := by
            funext p
            rw [decide_eq_decide, ProbeList.Answers, Queues.Answers, h.item]
          have hlength : q.outstanding.length ≤ q.count := by
            have hfew := h.few
            simp only [Queues.all, length_append] at hfew
            omega
          have hfind := h.linked.findOutstandingItem (fun p => q.Answers a p) hlength
          simp only [hanswers]
          cases hfound : q.outstanding.find? fun p => q.Answers a p with
          | none =>
            rw [hfound] at hfind
            rw [hfind]
          | some p =>
            rw [hfound] at hfind
            obtain ⟨l, hl, -⟩ := hfind
            rw [hl]

theorem step_outcome (hs : Represents s q) (h : Tracks c q lost) (henabled : Enabled s event) :
    (∃ s' q', step e s event = .ok s' ∧ Represents s' q' ∧ Effect e q event q') ∨
      ∃ p a now, ProbeList.replyTo e s event = some (p, a, now) ∧ BelowFirst a (s.item p) ∧
        step e s event = .error (.hop (-1)) := by
  have hrefines := step_refines e hs h.inHops henabled
  have hdelivered : ∀ r, event = .recv (some r) → r.Delivered := by
    rintro r rfl
    exact henabled
  have htimeout : event = .timeout → q.outstanding ≠ [] := by
    rintro rfl
    exact hs.waiting.1 henabled
  rcases step_cases (e := e) h.sound hdelivered htimeout with
    ⟨q', hq', heffect⟩ | ⟨p, a, now, hreply, hbelow, hfault⟩
  · left
    rw [hq'] at hrefines
    cases hstep : step e s event with
    | error fault =>
      rw [hstep] at hrefines
      cases hrefines
    | ok s' =>
      rw [hstep] at hrefines
      cases hrefines with
      | ok hs' => exact ⟨s', q', rfl, hs', heffect⟩
  · right
    refine ⟨p, a, now, (replyTo_eq hs event).trans hreply, by rw [hs.item]; exact hbelow, ?_⟩
    rw [hfault] at hrefines
    cases hstep : step e s event with
    | error fault =>
      rw [hstep] at hrefines
      cases hrefines
      rfl
    | ok s' =>
      rw [hstep] at hrefines
      cases hrefines

theorem run_induction {P : List (ProbeList × Event) → Queues → List ℕ → Prop} (hstart : P [] (Queues.initial c) [])
    (hstep : ∀ {steps s q lost event q' lost'}, Represents s q → Tracks c q lost →
      q.stopped = false → P steps q lost → Effect e q event q' →
      (¬LateReply e q event → lost' = lost) → P ((s, event) :: steps) q' lost')
    (run : Run e c steps o) {s : ProbeList} (ho : o = .ok s) :
    ∃ q lost, Represents s q ∧ Tracks c q lost ∧ P steps q lost := by
  induction run generalizing s with
  | start =>
    obtain ⟨-, s', hs', hrepresents⟩ := runTraceroute_represents c
    obtain rfl : s' = s := Except.ok.inj (hs'.symm.trans ho)
    exact ⟨_, _, hrepresents, Tracks.initial c, hstart⟩
  | step run live enabled ih =>
    obtain ⟨q, lost, hs, htracks, hp⟩ := ih rfl
    rcases step_outcome (e := e) hs htracks enabled with
      ⟨s', q', hs', hrepresents, heffect⟩ | ⟨p, a, now, -, -, hfault⟩
    · obtain rfl : s' = s := Except.ok.inj (hs'.symm.trans ho)
      obtain ⟨lost', htracks', -, hkept⟩ := htracks.step heffect
      have hlive := hs.stopped.symm.trans live
      exact ⟨q', lost', hrepresents, htracks', hstep hs htracks hlive hp heffect hkept⟩
    · rw [hfault] at ho
      cases ho

theorem run_always_iff {Q : Except Fault ProbeList → Prop} {K : ProbeList → Event → Prop}
    (hholds : ∀ {steps s}, Run e c steps (.ok s) → (∀ x ∈ steps, K x.1 x.2) → Q (.ok s))
    (hneeds : ∀ {steps s event}, Run e c steps (.ok s) → Enabled s event → Q (step e s event) → K s event)
    (hhop : ∀ {s event p a now}, ProbeList.replyTo e s event = some (p, a, now) → K s event → ¬BelowFirst a (s.item p))
    (run : Run e c steps o) :
    ((∀ x ∈ steps, Q (.ok x.1)) ∧ Q o) ↔ ∀ x ∈ steps, K x.1 x.2 := by
  induction run with
  | start =>
    obtain ⟨-, s, hs, -⟩ := runTraceroute_represents c
    have hrun : Run e c [] (.ok s) := hs ▸ .start
    rw [hs]
    refine iff_of_true ⟨fun x hx => absurd hx not_mem_nil, hholds hrun ?_⟩ ?_
    · exact fun x hx => absurd hx not_mem_nil
    · exact fun x hx => absurd hx not_mem_nil
  | @step steps s event run live enabled ih =>
    rw [forall_mem_cons, forall_mem_cons]
    constructor
    · rintro ⟨⟨hnow, hbefore⟩, hafter⟩
      exact ⟨hneeds run enabled hafter, ih.1 ⟨hbefore, hnow⟩⟩
    · rintro ⟨hevent, hall⟩
      obtain ⟨q, lost, hs, htracks, -⟩ :=
        run_induction (P := fun _ _ _ => True) trivial (fun _ _ _ _ _ _ => trivial) run rfl
      refine ⟨(ih.2 hall).symm, ?_⟩
      rcases step_outcome (e := e) hs htracks enabled with
        ⟨s', q', hs', -, -⟩ | ⟨p, a, now, hreply, hbelow, -⟩
      · have hafter : Run e c ((s, event) :: steps) (.ok s') := hs' ▸ run.step live enabled
        rw [hs']
        exact hholds hafter (forall_mem_cons.2 ⟨hevent, hall⟩)
      · exact absurd hbelow (hhop hreply hevent)

end Runs

section Execution

instance (r : Received) : Decidable r.Delivered := by
  unfold Received.Delivered
  cases r.source <;> infer_instance

instance (s : ProbeList) (event : Event) : Decidable (Enabled s event) :=
  match event with
  | .send _ => inferInstanceAs (Decidable (_ = _))
  | .recv none => inferInstanceAs (Decidable True)
  | .recv (some r) => inferInstanceAs (Decidable r.Delivered)
  | .timeout => inferInstanceAs (Decidable (_ = _))

def exec (e : Endian) (c : Config) : List Event → Except Fault ProbeList
  | [] => runTraceroute c
  | event :: events => exec e c events >>= fun s => step e s event

def trace (e : Endian) (c : Config) : List Event → List (ProbeList × Event)
  | [] => []
  | event :: events =>
    match exec e c events with
    | .ok s => (s, event) :: trace e c events
    | .error _ => trace e c events

def allowed (e : Endian) (c : Config) : List Event → Bool
  | [] => true
  | event :: events =>
    allowed e c events &&
      match exec e c events with
      | .ok s => !s.stopped && decide (Enabled s event)
      | .error _ => false

theorem exec_run (e : Endian) (c : Config) {events : List Event} (h : allowed e c events = true) :
    Run e c (trace e c events) (exec e c events) := by
  induction events with
  | nil => exact .start
  | cons event events ih =>
    rw [allowed, Bool.and_eq_true] at h
    obtain ⟨hbefore, hlast⟩ := h
    have hrun := ih hbefore
    rw [trace, exec]
    cases hexec : exec e c events with
    | error fault =>
      rw [hexec] at hlast
      cases hlast
    | ok s =>
      rw [hexec] at hlast hrun
      rw [Bool.and_eq_true, Bool.not_eq_true', decide_eq_true_iff] at hlast
      exact .step hrun hlast.1 hlast.2

theorem trace_events {e : Endian} {c : Config} {events : List Event} {x : ProbeList × Event}
    (h : x ∈ trace e c events) : x.2 ∈ events := by
  induction events with
  | nil => cases h
  | cons event events ih =>
    rw [trace] at h
    split at h
    · rcases mem_cons.1 h with rfl | hold
      · exact mem_cons_self ..
      · exact mem_cons_of_mem _ (ih hold)
    · exact mem_cons_of_mem _ (ih h)

/-- Quotes a probe with the identifier `index` and the source port `ident`. -/
def errorPacket (type code index ident ttl : ℕ) : Packet := fun i =>
  if i = 0 ∨ i = 28 then 0x45
  else if i = 3 then 56
  else if i = 20 then UInt8.ofNat type
  else if i = 21 then UInt8.ofNat code
  else if i = 32 then UInt8.ofNat (index / 256)
  else if i = 33 then UInt8.ofNat index
  else if i = 36 then UInt8.ofNat ttl
  else if i = 37 then 17
  else if i = 48 then UInt8.ofNat (ident / 256)
  else if i = 49 then UInt8.ofNat ident
  else 0

theorem randomLimit_pos : 0 < 2 ^ 31 := by decide

def oneTarget : Config :=
  { targets := [{ addr := some (.inet 0x0100007f), random := ⟨0, randomLimit_pos⟩ }]
    window := 50
    ident := 9000 }

end Execution

end Amplet.TracerouteRuns
