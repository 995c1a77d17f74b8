import Amplet.LinkedList
import Amplet.TracerouteLists

/-!
# The four lists as lists

The callbacks over plain lists of destinations, without links, ends and timers,
and what the operations on linked lists do to such lists.
-/

namespace Amplet.TracerouteQueues
open List LinkedList SocketAddress TracerouteProbe TracerouteLists

structure Queues where
  pending : List ℕ
  ready : List ℕ
  outstanding : List ℕ
  done : List ℕ
  item : ℕ → Dest
  stopped : Bool
  ident : ℕ
  count : ℕ

namespace Queues
open List

def all (q : Queues) : List ℕ := q.pending ++ q.ready ++ q.outstanding ++ q.done

def settle (q : Queues) (p : ℕ) (d : Dest) : Move → Queues
  | .ready => { q with ready := q.ready ++ [p], item := Function.update q.item p d }
  | .done =>
    { q with
      pending := q.pending.tail
      ready := q.ready ++ q.pending.take 1
      done := p :: q.done
      item := Function.update q.item p { d with doneForward := true } }
  | .lost => { q with item := Function.update q.item p d }

def stopIfIdle (q : Queues) : Queues :=
  { q with stopped := q.stopped || (q.outstanding.isEmpty && q.ready.isEmpty) }

def Answers (q : Queues) (a : Answer) (p : ℕ) : Prop :=
  (q.item p).id = (a.index % 1024 : ℕ) ∧ (q.item p).ttl = (a.index / 1024 : ℕ)

instance (q : Queues) (a : Answer) (p : ℕ) : Decidable (q.Answers a p) :=
  inferInstanceAs (Decidable (_ ∧ _))

def send (r : Sending) (q : Queues) : Except Fault Queues :=
  match q.ready with
  | [] => .ok q
  | p :: ready => do
    let (d, sent) ← sendProbe r (q.item p)
    if sent then
      .ok { q with
        ready := ready
        outstanding := q.outstanding ++ [p]
        item := Function.update q.item p d }
    else .ok ({ q with ready := ready }.settle p d .done).stopIfIdle

def reply (e : Endian) (a : Answer) (now : ℤ) (q : Queues) : Except Fault Queues :=
  match q.outstanding.find? fun p => q.Answers a p with
  | none => .ok q.stopIfIdle
  | some p => do
    let (d, move) ← processReply e a now (q.item p)
    .ok ({ q with outstanding := q.outstanding.erase p }.settle p d move).stopIfIdle

def recv (e : Endian) (r : Received) (q : Queues) : Except Fault Queues := do
  match ← readPacket e q.ident q.count r.source r.packet with
  | none => .ok q.stopIfIdle
  | some a => q.reply e a r.now

def timeout (q : Queues) : Except Fault Queues :=
  match q.outstanding with
  | [] => .error .assertion
  | p :: outstanding => do
    let (d, move) ← processTimeout (q.item p)
    .ok ({ q with outstanding := outstanding }.settle p d move).stopIfIdle

def step (e : Endian) (q : Queues) : Event → Except Fault Queues
  | .send r => q.send r
  | .recv none => .ok q
  | .recv (some r) => q.recv e r
  | .timeout => q.timeout

end Queues

section Contents

variable {q : Queues} {p : ℕ}

theorem Queues.not_mem_all : p ∉ q.all ↔ p ∉ q.pending ∧ p ∉ q.ready ∧ p ∉ q.outstanding ∧ p ∉ q.done := by
  simp only [Queues.all, mem_append, not_or, and_assoc]

theorem Queues.perm_appendReady : (Queues.all { q with ready := q.ready ++ [p] }).Perm (p :: q.all) := by
  rw [perm_iff_count]
  intro a
  simp only [Queues.all, count_append, count_cons, count_nil]
  omega

theorem Queues.perm_appendOutstanding : (Queues.all { q with outstanding := q.outstanding ++ [p] }).Perm (p :: q.all) := by
  rw [perm_iff_count]
  intro a
  simp only [Queues.all, count_append, count_cons, count_nil]
  omega

theorem Queues.perm_pushDone : (Queues.all { q with done := p :: q.done }).Perm (p :: q.all) := by
  rw [perm_iff_count]
  intro a
  simp only [Queues.all, count_append, count_cons]
  omega

theorem Queues.perm_enqueue : (Queues.all
    { q with pending := q.pending.tail, ready := q.ready ++ q.pending.take 1 }).Perm q.all := by
  rw [perm_iff_count]
  intro a
  cases hpending : q.pending with
  | nil => simp [Queues.all, hpending]
  | cons p pending =>
    simp only [Queues.all, hpending, tail_cons, take_succ_cons, take_zero, count_append, count_cons, count_nil]
    omega

theorem Queues.perm_popReady {ready : List ℕ} (hready : q.ready = p :: ready) :
    q.all.Perm (p :: Queues.all { q with ready := ready }) := by
  rw [perm_iff_count]
  intro a
  simp only [Queues.all, hready, count_append, count_cons]
  omega

theorem Queues.perm_erase (hp : p ∈ q.outstanding) :
    q.all.Perm (p :: Queues.all { q with outstanding := q.outstanding.erase p }) := by
  have herase := (perm_cons_erase hp).count_eq
  rw [perm_iff_count]
  intro a
  have ha := herase a
  simp only [Queues.all, count_append, count_cons] at ha ⊢
  omega

theorem Queues.perm_popOutstanding {outstanding : List ℕ} (houtstanding : q.outstanding = p :: outstanding) :
    q.all.Perm (p :: Queues.all { q with outstanding := outstanding }) := by
  have hperm := Queues.perm_erase (q := q) (p := p) (by rw [houtstanding]; simp)
  rwa [houtstanding, erase_cons_head] at hperm

theorem Queues.not_mem_of_ready (h : q.all.Nodup) (hp : p ∈ q.ready) : p ∉ q.pending ∧ p ∉ q.outstanding ∧ p ∉ q.done := by
  simp only [Queues.all] at h
  grind

theorem Queues.not_mem_of_outstanding (h : q.all.Nodup) (hp : p ∈ q.outstanding) : p ∉ q.pending ∧ p ∉ q.ready ∧ p ∉ q.done := by
  simp only [Queues.all] at h
  grind

theorem Queues.nodup_ready (h : q.all.Nodup) : q.ready.Nodup := by
  simp only [Queues.all] at h
  grind

theorem Queues.nodup_outstanding (h : q.all.Nodup) : q.outstanding.Nodup := by
  simp only [Queues.all] at h
  grind

@[simp] theorem Queues.outstanding_settle (q : Queues) (p : ℕ) (d : Dest) (m : Move) :
    (q.settle p d m).outstanding = q.outstanding := by cases m <;> rfl

@[simp] theorem Queues.stopped_settle (q : Queues) (p : ℕ) (d : Dest) (m : Move) :
    (q.settle p d m).stopped = q.stopped := by cases m <;> rfl

@[simp] theorem Queues.ident_settle (q : Queues) (p : ℕ) (d : Dest) (m : Move) :
    (q.settle p d m).ident = q.ident := by cases m <;> rfl

@[simp] theorem Queues.count_settle (q : Queues) (p : ℕ) (d : Dest) (m : Move) :
    (q.settle p d m).count = q.count := by cases m <;> rfl

theorem Queues.ready_settle (q : Queues) (p : ℕ) (d : Dest) (m : Move) (h : q.ready ≠ []) : (q.settle p d m).ready ≠ [] := by
  cases m <;> simp [Queues.settle, h]

theorem Queues.item_settle_of_ne (q : Queues) {p p' : ℕ} (d : Dest) (m : Move) (hne : p' ≠ p) :
    (q.settle p d m).item p' = q.item p' := by
  cases m <;> simp [Queues.settle, Function.update_of_ne hne]

theorem Queues.all_settle (q : Queues) (p : ℕ) (d : Dest) (m : Move) :
    (q.settle p d m).all.Perm (if m = .lost then q.all else p :: q.all) := by
  cases m with
  | ready => exact Queues.perm_appendReady
  | done =>
    have hpushed : (Queues.all { q with done := p :: q.done }).Perm (p :: q.all) :=
      Queues.perm_pushDone
    exact Queues.perm_enqueue.trans hpushed
  | lost => exact .rfl

theorem Queues.stopIfIdle_of_ne (h : q.outstanding ≠ []) : q.stopIfIdle = q := by
  have hempty : q.outstanding.isEmpty = false := by simpa using h
  rw [Queues.stopIfIdle, hempty, Bool.false_and, Bool.or_false]

theorem Queues.perm_pushPending {p : ℕ} : (Queues.all { q with pending := p :: q.pending }).Perm (p :: q.all) := .rfl

def Queues.InHops (q : Queues) : Prop :=
  ∀ p ∈ q.outstanding, ∃ i, hopIndex (q.item p).ttl = .ok i

theorem Queues.InHops.settle {q' : Queues} (h : q.InHops) (hp : p ∉ q'.outstanding)
    (hsub : q'.outstanding ⊆ q.outstanding) (hitem : q'.item = q.item) (d : Dest) (m : Move) :
    (q'.settle p d m).InHops := by
  intro p' hp'
  rw [Queues.outstanding_settle] at hp'
  rw [Queues.item_settle_of_ne _ _ _ (ne_of_mem_of_not_mem hp' hp), hitem]
  exact h p' (hsub hp')

end Contents

structure Linked (l : Lists) (q : Queues) : Prop where
  pending : Chain l.next l.pending q.pending
  ready : Queue l.next l.ready l.readyEnd q.ready
  outstanding : Queue l.next l.outstanding l.outstandingEnd q.outstanding
  done : Chain l.next l.done q.done
  nodup : q.all.Nodup

section Links

variable {l : Lists} {q : Queues} {p : ℕ}

section

variable (h : Linked l q)
include h

theorem Linked.setNext (hp : p ∉ q.all) (link : Option ℕ) : Linked (l.setNext p link) q := by
  obtain ⟨hpending, hready, houtstanding, hdone⟩ := Queues.not_mem_all.1 hp
  exact
    { pending := h.pending.update hpending link
      ready := h.ready.update hready link
      outstanding := h.outstanding.update houtstanding link
      done := h.done.update hdone link
      nodup := h.nodup }

theorem Linked.ready_isNone : l.ready.isNone = q.ready.isEmpty := by
  rw [h.ready.chain.head_eq]
  cases q.ready <;> rfl

theorem Linked.outstanding_isNone : l.outstanding.isNone = q.outstanding.isEmpty := by
  rw [h.outstanding.chain.head_eq]
  cases q.outstanding <;> rfl

theorem Linked.appendReadyItem (hp : p ∉ q.all) : ∃ l', l.appendReadyItem p = .ok (l', if q.ready = [] then 1 else 0) ∧
      Linked l' { q with ready := q.ready ++ [p] } := by
  have hset := h.setNext hp none
  have hnext : (l.setNext p none).next p = none := Function.update_self ..
  have hnodup := Queues.perm_appendReady.nodup_iff.2 (nodup_cons.2 ⟨hp, h.nodup⟩)
  rcases hset.ready.append_cases hnext (Queues.not_mem_all.1 hp).2.1 (Queues.nodup_ready h.nodup) with
    ⟨hempty, hnone⟩ | ⟨last, hlast, hempty, hsome, hend, hqueue⟩
  · refine ⟨_, by rw [Lists.appendReadyItem, if_pos hnone, if_pos hempty], ?_⟩
    rw [hempty] at hnodup ⊢
    exact { hset with ready := Queue.singleton hnext, nodup := hnodup }
  · -- the link from the last ready destination does not concern the other lists
    obtain ⟨hpending, houtstanding, hdone⟩ := Queues.not_mem_of_ready h.nodup hlast
    refine ⟨{ (l.setNext p none).setNext last (some p) with readyEnd := some p }, ?_, ?_⟩
    · rw [Lists.appendReadyItem, hsome, if_neg Bool.false_ne_true, if_neg hempty, hend]
    · exact
        { pending := hset.pending.update hpending _
          ready := hqueue
          outstanding := hset.outstanding.update houtstanding _
          done := hset.done.update hdone _
          nodup := hnodup }

theorem Linked.enqueueNextPending : ∃ l', l.enqueueNextPending = .ok (l', if q.ready = [] ∧ q.pending ≠ [] then 1 else 0) ∧
      Linked l' { q with pending := q.pending.tail, ready := q.ready ++ q.pending.take 1 } := by
  cases hpending : q.pending with
  | nil =>
    have hhead : l.pending = none := by rw [h.pending.head_eq, hpending]; rfl
    refine ⟨l, by rw [Lists.enqueueNextPending, hhead]; simp, ?_⟩
    have hsame : q = { q with pending := [], ready := q.ready ++ [] } := by
      rw [append_nil, ← hpending]
    exact hsame ▸ h
  | cons p pending =>
    have hchain := h.pending
    rw [hpending] at hchain
    have hperm : q.all.Perm (p :: Queues.all { q with pending := pending }) := by
      rw [Queues.all, hpending]
      exact .rfl
    obtain ⟨hp, hnodup⟩ := nodup_cons.1 (hperm.nodup_iff.1 h.nodup)
    have hpopped : Linked { l with pending := l.next p } { q with pending := pending } :=
      { h with pending := hchain.2, nodup := hnodup }
    obtain ⟨l', heq, hl'⟩ := hpopped.appendReadyItem hp
    refine ⟨l', ?_, hl'⟩
    rw [Lists.enqueueNextPending, hchain.1]
    simpa using heq

theorem Linked.pushDone (hp : p ∉ q.all) : Linked (l.pushDone p) { q with done := p :: q.done } :=
  { h.setNext hp l.done with
    done := h.done.push_front (Queues.not_mem_all.1 hp).2.2.2
    nodup := Queues.perm_pushDone.nodup_iff.2 (nodup_cons.2 ⟨hp, h.nodup⟩) }

theorem Linked.popReady {ready : List ℕ} (hready : q.ready = p :: ready) :
    l.ready = some p ∧ Linked (l.popReady p) { q with ready := ready } ∧ p ∉ Queues.all { q with ready := ready } := by
  have hqueue := h.ready
  rw [hready] at hqueue
  obtain ⟨hp, hnodup⟩ := nodup_cons.1 ((Queues.perm_popReady hready).nodup_iff.1 h.nodup)
  have hpopped : Linked
      { l with ready := l.next p, readyEnd := if (l.next p).isNone then none else l.readyEnd }
      { q with ready := ready } :=
    { h with ready := hqueue.dequeue, nodup := hnodup }
  exact ⟨hqueue.chain.1, hpopped.setNext hp none, hp⟩

theorem Linked.popOutstanding {outstanding : List ℕ} (houtstanding : q.outstanding = p :: outstanding) :
    l.outstanding = some p ∧ Linked (l.popOutstanding p) { q with outstanding := outstanding } ∧
      p ∉ Queues.all { q with outstanding := outstanding } := by
  have hqueue := h.outstanding
  rw [houtstanding] at hqueue
  obtain ⟨hp, hnodup⟩ :=
    nodup_cons.1 ((Queues.perm_popOutstanding houtstanding).nodup_iff.1 h.nodup)
  exact ⟨hqueue.chain.1, { h with outstanding := hqueue.dequeue, nodup := hnodup }, hp⟩

theorem Linked.appendOutstanding (hnext : l.next p = none) (hp : p ∉ q.all) : ∃ l', l.appendOutstanding p = .ok l' ∧
      Linked l' { q with outstanding := q.outstanding ++ [p] } := by
  have hnodup := Queues.perm_appendOutstanding.nodup_iff.2 (nodup_cons.2 ⟨hp, h.nodup⟩)
  rcases h.outstanding.append_cases hnext (Queues.not_mem_all.1 hp).2.2.1 (Queues.nodup_outstanding h.nodup)
    with ⟨hempty, hnone⟩ | ⟨last, hlast, -, hsome, hend, hqueue⟩
  · refine ⟨_, by rw [Lists.appendOutstanding, if_pos hnone], ?_⟩
    rw [hempty] at hnodup ⊢
    exact { h with outstanding := Queue.singleton hnext, nodup := hnodup }
  · obtain ⟨hpending, hready, hdone⟩ := Queues.not_mem_of_outstanding h.nodup hlast
    refine ⟨{ l.setNext last (some p) with outstandingEnd := some p }, ?_, ?_⟩
    · rw [Lists.appendOutstanding, hsome, if_neg Bool.false_ne_true, hend]
    · exact
        { pending := h.pending.update hpending _
          ready := h.ready.update hready _
          outstanding := hqueue
          done := h.done.update hdone _
          nodup := hnodup }

end

theorem Linked.findFrom {before rest : List ℕ} {prev turns : ℕ} (found : ℕ → Bool)
    (h : Linked l q) (hsplit : q.outstanding = before ++ prev :: rest)
    (hbefore : ∀ p ∈ before ++ [prev], ¬found p) (hturns : rest.length ≤ turns) :
    match rest.find? found with
    | none => l.findFrom found turns prev rest.head? = (none, l)
    | some p => ∃ l', l.findFrom found turns prev rest.head? = (some p, l') ∧
        Linked l' { q with outstanding := q.outstanding.erase p } := by
  induction rest generalizing before prev turns with
  | nil => cases turns <;> rfl
  | cons p rest ih =>
    obtain ⟨turns, rfl⟩ : ∃ n, turns = n + 1 := ⟨turns - 1, by simp at hturns; omega⟩
    have hqueue := h.outstanding
    have hsingle := Queues.nodup_outstanding h.nodup
    rw [hsplit] at hqueue hsingle
    have hchain : Chain l.next l.outstanding ((before ++ [prev]) ++ p :: rest) := by
      simpa using hqueue.chain
    by_cases hfound : found p = true
    · have herase : q.outstanding.erase p = before ++ prev :: rest := by
        rw [hsplit, erase_append_right _ (by grind), erase_cons_tail (by grind), erase_cons_head]
      have hmem : p ∈ q.outstanding := by rw [hsplit]; simp
      obtain ⟨hp, hnodup⟩ := nodup_cons.1 ((Queues.perm_erase hmem).nodup_iff.1 h.nodup)
      obtain ⟨hpending, hready, hdone⟩ :=
        Queues.not_mem_of_outstanding h.nodup (show prev ∈ q.outstanding by rw [hsplit]; simp)
      rw [herase] at hp hnodup
      simp only [find?_cons_of_pos hfound, head?_cons, Lists.findFrom, hfound, if_true]
      refine ⟨_, rfl, ?_⟩
      rw [herase, show (l.setNext prev (l.next p)).next prev = l.next p from
        Function.update_self ..]
      have hunlinked : Linked
          { l.setNext prev (l.next p) with
            outstandingEnd := if (l.next p).isNone then some prev else l.outstandingEnd }
          { q with outstanding := before ++ prev :: rest } :=
        { pending := h.pending.update hpending _
          ready := h.ready.update hready _
          outstanding := hqueue.unlink hsingle
          done := h.done.update hdone _
          nodup := hnodup }
      exact hunlinked.setNext hp none
    · simp only [find?_cons_of_neg hfound, head?_cons, Lists.findFrom, hfound]
      have hnext := @ih (before ++ [prev]) p turns (by simpa using hsplit) (by grind) (by simpa using hturns)
      rw [← hchain.next_eq] at hnext
      exact hnext

theorem Linked.findOutstandingItem {turns : ℕ} (found : ℕ → Bool) (h : Linked l q) (hturns : q.outstanding.length ≤ turns) :
    match q.outstanding.find? found with
    | none => l.findOutstandingItem found turns = (none, l)
    | some p => ∃ l', l.findOutstandingItem found turns = (some p, l') ∧
        Linked l' { q with outstanding := q.outstanding.erase p } := by
  cases houtstanding : q.outstanding with
  | nil =>
    have hhead : l.outstanding = none := by rw [h.outstanding.chain.head_eq, houtstanding]; rfl
    simp only [find?_nil, Lists.findOutstandingItem, hhead]
  | cons p rest =>
    obtain ⟨hhead, hpopped, hp⟩ := h.popOutstanding houtstanding
    by_cases hfound : found p = true
    · simp only [find?_cons_of_pos hfound, Lists.findOutstandingItem, hhead, hfound, if_true]
      refine ⟨_, rfl, ?_⟩
      rw [erase_cons_head]
      exact hpopped.setNext hp none
    · have hlength : rest.length ≤ turns := by
        rw [houtstanding] at hturns
        exact Nat.le_of_succ_le hturns
      have hrest := h.findFrom found (show q.outstanding = [] ++ p :: rest from houtstanding) (by simpa using hfound) hlength
      have hnext : l.next p = rest.head? := by
        have hchain := h.outstanding.chain
        rw [houtstanding] at hchain
        exact hchain.next_eq (l := [])
      simp only [find?_cons_of_neg hfound, Lists.findOutstandingItem, hhead, hfound]
      rw [hnext, ← houtstanding]
      exact hrest

theorem Linked.pushPending {l : Lists} {p : ℕ} (h : Linked l q) (hp : p ∉ q.all) :
    Linked { l.setNext p l.pending with pending := some p }
      { q with pending := p :: q.pending } :=
  { h.setNext hp l.pending with
    pending := h.pending.push_front (Queues.not_mem_all.1 hp).1
    nodup := Queues.perm_pushPending.nodup_iff.2 (nodup_cons.2 ⟨hp, h.nodup⟩) }

end Links

section Start

def Queues.create (targets : List Target) (i : ℕ) (window : ℤ) (q : Queues) : Queues :=
  match targets with
  | [] => q
  | t :: targets =>
    let q := { q with item := Function.update q.item i (t.item i) }
    if window ≠ 0 then Queues.create targets (i + 1) (window - 1) { q with ready := q.ready ++ [i] }
    else Queues.create targets (i + 1) window { q with pending := i :: q.pending }

def Queues.initial (c : Config) : Queues :=
  Queues.create c.targets 0 c.window
    { pending := [], ready := [], outstanding := [], done := [], item := fun _ => noItem
      stopped := false, ident := c.ident, count := c.targets.length }

theorem Queues.ready_create (targets : List Target) (i : ℕ) (window : ℤ) (q : Queues)
    (h : q.ready ≠ [] ∨ window ≠ 0 ∧ targets ≠ []) :
    (Queues.create targets i window q).ready ≠ [] := by
  induction targets generalizing i window q with
  | nil => exact h.resolve_right fun hnone => hnone.2 rfl
  | cons t targets ih =>
    rw [Queues.create]
    by_cases hwindow : window ≠ 0
    · rw [if_pos hwindow]
      exact ih _ _ _ (.inl (by simp))
    · rw [if_neg hwindow]
      exact ih _ _ _ (.inl (by simpa [hwindow] using h))

theorem Queues.count_create (targets : List Target) (i : ℕ) (window : ℤ) (q : Queues) :
    (Queues.create targets i window q).count = q.count := by
  induction targets generalizing i window q with
  | nil => rfl
  | cons t targets ih =>
    rw [Queues.create]
    split <;> rw [ih]

theorem Queues.count_initial (c : Config) : (Queues.initial c).count = c.targets.length :=
  Queues.count_create ..

end Start

end Amplet.TracerouteQueues
