import Amplet.ScheduleTime

/-!
# Target lists

Embedding of `populate_target_lists` in `src/measured/schedule.c` with the lookups of
`src/measured/nametable.c` and `src/common/modules.c`. Target strings are read through
pointers, and `strtok` changes the text behind them. A list is the NULL terminated array
of the source, and `none` its NULL pointer.
-/

namespace Amplet.TargetLists
open List Option Bytes Delimited ScheduleTime

inductive Family
  | unspec
  | inet
  | inet6
deriving DecidableEq, Repr

structure AddrInfo where
  family : Family
  address : List UInt8
  canonname : CStr
deriving DecidableEq, Repr

/-- An entry holds a chain of at least one address. -/
structure NametableItem where
  head : AddrInfo
  tail : List AddrInfo

def NametableItem.addr (item : NametableItem) : List AddrInfo := item.head :: item.tail

def nameToAddress (table : List NametableItem) (name : CStr) : Option NametableItem :=
  table.find? fun item => item.head.canonname = name

structure ResolveDest where
  name : CStr
  family : Family
  count : UInt8
deriving DecidableEq, Repr

structure Test where
  id : UInt64
  name : CStr
  maxTargets : UInt16
  minTargets : UInt16
  serverCallback : Bool
  serverParams : Option (List CStr)
deriving DecidableEq, Repr

def getTestByName (tests : List Test) (name : CStr) : Option Test :=
  tests.find? fun test => test.name = name

def getTestById (tests : List Test) (id : UInt64) : Option Test :=
  tests.find? fun test => test.id = id

structure TestMeta where
  iface : Option CStr
  sourcev4 : Option CStr
  sourcev6 : Option CStr
  interPacketDelay : UInt32
  dscp : UInt8
deriving DecidableEq, Repr

/-- The counters are the lengths of the lists; `params` points to an argument array. -/
structure TestItem where
  abstime : TimeVal
  interval : TimeVal
  start : ℤ
  stop : ℤ
  period : SchedulePeriod
  test : Test
  dests : List AddrInfo
  resolve : List ResolveDest
  testMeta : TestMeta
  params : Option ℕ
deriving DecidableEq, Repr

def TestItem.total (item : TestItem) : ℕ := item.dests.length + item.resolve.length

abbrev Buffers := ℕ → CStr

def bang : UInt8 := 33

def parseOption (limits : Family × UInt16) (option : CStr) : Family × UInt16 :=
  if option.take 1 = cstr "*" then limits
  else if option.take 2 = cstr "v4" then (.inet, limits.2)
  else if option.take 2 = cstr "v6" then (.inet6, limits.2)
  else (limits.1, UInt16.ofInt (atoi option))

def parseTarget (target : CStr) : Option (CStr × Family × UInt16) :=
  match strtok [bang] target with
  | none => none
  | some (name, options) => some (name, (tokens bang options).foldl parseOption (.unspec, 0))

def addAddresses (family : Family) (count : UInt16) : TestItem → List AddrInfo → TestItem
  | item, [] => item
  | item, addr :: rest =>
    if (0 < item.test.maxTargets ∧ item.test.maxTargets.toNat ≤ item.total) ∨ (0 < count ∧ count.toNat ≤ item.total) then item
    else if family = .unspec ∨ family = addr.family then
      addAddresses family count { item with dests := item.dests ++ [addr] } rest
    else addAddresses family count item rest

/-- The addresses of a known name, or an entry to resolve when the test runs. -/
def addTarget (table : List NametableItem) (item : TestItem) (name : CStr) (family : Family) (count : UInt16) : TestItem :=
  match nameToAddress table name with
  | some addresses => addAddresses family count item addresses.addr
  | none => { item with resolve := ⟨name, family, count.toUInt8⟩ :: item.resolve }

/-- A target without a name fails the assertion of `name_to_address`. -/
def processTarget (table : List NametableItem) (s : TestItem × Buffers) (target : ℕ) : Option (TestItem × Buffers) :=
  match parseTarget (s.2 target) with
  | none => none
  | some (name, family, count) =>
    some (addTarget table s.1 name family count, Function.update s.2 target (strtokResidue [bang] (s.2 target)))

def TestItem.HasRoom (item : TestItem) : Prop :=
  item.test.maxTargets = 0 ∨ item.total < item.test.maxTargets.toNat

instance (item : TestItem) : Decidable item.HasRoom := inferInstanceAs (Decidable (_ ∨ _))

def populateLoop (table : List NametableItem) : TestItem × Buffers → List ℕ → Option (TestItem × Buffers × List ℕ)
  | s, [] => some (s.1, s.2, [])
  | s, target :: targets =>
    if s.1.HasRoom then
      match processTarget table s target with
      | none => none
      | some s => populateLoop table s targets
    else some (s.1, s.2, target :: targets)

def populateTargetLists (table : List NametableItem) (item : TestItem) (bufs : Buffers) :
    Option (List ℕ) → Option (TestItem × Buffers × Option (List ℕ))
  | none => some ({ item with dests := [], resolve := [] }, bufs, none)
  | some targets =>
    match populateLoop table ({ item with dests := [], resolve := [] }, bufs) targets with
    | none => none
    | some (item, bufs, rest) => some (item, bufs, some rest)

theorem addAddresses_eq (family : Family) (count : UInt16) (item : TestItem) (chain : List AddrInfo) :
    ∃ added, addAddresses family count item chain = { item with dests := item.dests ++ added } := by
  induction chain generalizing item with
  | nil => exact ⟨[], by simp [addAddresses]⟩
  | cons addr rest ih =>
    rw [addAddresses]
    split_ifs
    · exact ⟨[], by simp⟩
    · obtain ⟨added, h⟩ := ih { item with dests := item.dests ++ [addr] }
      exact ⟨addr :: added, by simp [h]⟩
    · exact ih item

variable {item : TestItem}

theorem addAddresses_total_le (hpos : 0 < item.test.maxTargets)
    (hle : item.total ≤ item.test.maxTargets.toNat) (family : Family) (count : UInt16)
    (chain : List AddrInfo) :
    (addAddresses family count item chain).total ≤ item.test.maxTargets.toNat := by
  induction chain generalizing item with
  | nil => exact hle
  | cons addr rest ih =>
    rw [addAddresses]
    split_ifs with hfull
    · exact hle
    · simp only [not_or, not_and, not_le] at hfull
      have hroom := hfull.1 hpos
      exact ih hpos (by simp only [TestItem.total, length_append] at *; simp; omega)
    · exact ih hpos hle

theorem addTarget_eq (table : List NametableItem) (item : TestItem) (name : CStr) (family : Family) (count : UInt16) :
    ∃ added names, addTarget table item name family count =
      { item with dests := item.dests ++ added, resolve := names ++ item.resolve } := by
  rw [addTarget]
  cases nameToAddress table name with
  | some addresses =>
    obtain ⟨added, h⟩ := addAddresses_eq family count item addresses.addr
    exact ⟨added, [], by simpa using h⟩
  | none => exact ⟨[], [_], by simp; rfl⟩

theorem addTarget_total_le (hpos : 0 < item.test.maxTargets) (hroom : item.HasRoom)
    (table : List NametableItem) (name : CStr) (family : Family) (count : UInt16) :
    (addTarget table item name family count).total ≤ item.test.maxTargets.toNat := by
  have hlt : item.total < item.test.maxTargets.toNat :=
    hroom.resolve_left (UInt16.pos_iff_ne_zero.mp hpos)
  rw [addTarget]
  cases nameToAddress table name with
  | some addresses => exact addAddresses_total_le hpos hlt.le family count addresses.addr
  | none =>
    simp only [TestItem.total, length_cons] at *
    omega

theorem populateLoop_spec {table : List NametableItem} {s : TestItem × Buffers}
    {targets rest : List ℕ} {bufs : Buffers}
    (h : populateLoop table s targets = some (item, bufs, rest)) :
    ∃ consumed, targets = consumed ++ rest ∧ consumed.foldlM (processTarget table) s = some (item, bufs) ∧
      (s.1.HasRoom → targets ≠ [] → consumed ≠ []) ∧ (rest ≠ [] → ¬ item.HasRoom) := by
  induction targets generalizing s with
  | nil =>
    simp only [populateLoop, some.injEq, Prod.mk.injEq] at h
    obtain ⟨rfl, rfl, rfl⟩ := h
    exact ⟨[], by simp⟩
  | cons target targets ih =>
    rw [populateLoop] at h
    split_ifs at h with hroom
    · cases hstep : processTarget table s target with
      | none => simp [hstep] at h
      | some s' =>
        rw [hstep] at h
        obtain ⟨consumed, rfl, hfold, -, hfull⟩ := ih h
        exact ⟨target :: consumed, by simp, by simp [foldlM_cons, hstep, hfold], by simp, hfull⟩
    · cases h
      exact ⟨[], rfl, by simp [foldlM_nil], fun hr => absurd hr hroom, fun _ => hroom⟩

theorem populateLoop_item {table : List NametableItem} {s : TestItem × Buffers}
    {targets rest : List ℕ} {bufs : Buffers}
    (h : populateLoop table s targets = some (item, bufs, rest))
    (hle : 0 < s.1.test.maxTargets → s.1.total ≤ s.1.test.maxTargets.toNat) :
    item = { s.1 with dests := item.dests, resolve := item.resolve } ∧
      (0 < item.test.maxTargets → item.total ≤ item.test.maxTargets.toNat) := by
  induction targets generalizing s with
  | nil =>
    simp only [populateLoop, some.injEq, Prod.mk.injEq] at h
    obtain ⟨rfl, -, -⟩ := h
    exact ⟨rfl, hle⟩
  | cons target targets ih =>
    rw [populateLoop] at h
    split_ifs at h with hroom
    · cases hparse : parseTarget (s.2 target) with
      | none => simp [processTarget, hparse] at h
      | some p =>
        obtain ⟨name, family, count⟩ := p
        simp only [processTarget, hparse] at h
        obtain ⟨added, names, heq⟩ := addTarget_eq table s.1 name family count
        have htest : (addTarget table s.1 name family count).test = s.1.test := by rw [heq]
        have hnext := ih h (by
          intro hpos
          rw [htest] at hpos ⊢
          exact addTarget_total_le hpos hroom table name family count)
        refine ⟨?_, hnext.2⟩
        rw [hnext.1, heq]
    · simp only [some.injEq, Prod.mk.injEq] at h
      obtain ⟨rfl, -, -⟩ := h
      exact ⟨rfl, hle⟩

end Amplet.TargetLists
