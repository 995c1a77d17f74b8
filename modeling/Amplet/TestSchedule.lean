import Amplet.Ownership
import Amplet.ParamString
import Amplet.TargetLists

/-!
# The test schedule

Embedding of the part of `src/measured/schedule.c` that turns test definitions into
scheduled items and frees them. Argument arrays live in numbered cells, so that several
items can point to one array; a freed cell is empty. Using freed memory, or following a
NULL pointer, ends a run with no result. A definition holds the values that its keys
left in the variables of the source.
-/

namespace Amplet.TestSchedule
open Bytes ScheduleTime ParamString TargetLists Ownership

abbrev ParamArrays := List (Option (List CStr))

structure Schedule where
  items : List TestItem
  arrays : ParamArrays
  bufs : Buffers

/-- The clock, and the order in which `event_base_foreach_event` visits the items. -/
structure EventBase where
  now : TimeVal
  order : ℕ → List ℕ
  complete : ∀ n, (order n).Perm (List.range n)

def EventBase.oldestFirst (now : TimeVal) : EventBase := ⟨now, List.range, fun _ => .refl _⟩

structure TestDefinition where
  testname : Option CStr
  period : Option CStr
  start : Option ℤ
  stop : Option ℤ
  frequency : Option ℤ
  args : Option CStr
  targets : Option (List ℕ)

structure Environment where
  tests : List Test
  table : List NametableItem
  testMeta : TestMeta

/-- Ends with the first array, so `strcmp` is given NULL when the second is shorter. -/
def compareParams : List CStr → List CStr → Option Bool
  | [], [] => some true
  | [], _ :: _ => some false
  | _ :: _, [] => none
  | a :: as, b :: bs => if a ≠ b then some false else compareParams as bs

def compareTestItems (arrays : ParamArrays) (a b : TestItem) : Option Bool :=
  if a.test ≠ b.test then some false
  else if a.interval ≠ b.interval then some false
  else if a.period ≠ b.period then some false
  else if a.start ≠ b.start then some false
  else if a.stop ≠ b.stop then some false
  else
    match a.params, b.params with
    | some p, some q =>
      match readCell arrays p, readCell arrays q with
      | some as, some bs => compareParams as bs
      | _, _ => none
    | none, none => some true
    | _, _ => some false

def checkTestCompare (arrays : ParamArrays) (test sched : TestItem) : Option Bool :=
  match compareTestItems arrays sched test with
  | none => none
  | some false => some false
  | some true =>
    some (decide (test.test.maxTargets = 0 ∨ sched.total < test.test.maxTargets.toNat))

def eventBaseForeach (check : TestItem → Option Bool) (items : List TestItem) : List ℕ → Option (Option ℕ)
  | [] => some none
  | i :: order =>
    match items[i]? with
    | none => eventBaseForeach check items order
    | some item =>
      match check item with
      | none => none
      | some true => some (some i)
      | some false => eventBaseForeach check items order

/-- `some none` when no item takes the test. -/
def mergeScheduledTests (base : EventBase) (s : Schedule) (test : TestItem) : Option (Option (List TestItem)) :=
  match eventBaseForeach (checkTestCompare s.arrays test) s.items (base.order s.items.length) with
  | none => none
  | some none => some none
  | some (some i) =>
    match test.dests, test.resolve with
    | addr :: _, _ =>
      some (some (s.items.modify i fun item => { item with dests := item.dests ++ [addr] }))
    | [], name :: _ =>
      some (some (s.items.modify i fun item => { item with resolve := name :: item.resolve }))
    | [], [] => none

def freeTestScheduleItem (arrays : ParamArrays) (item : TestItem) : Option ParamArrays :=
  releaseOwner TestItem.params arrays item

def scheduleItem (base : EventBase) (test : TestItem) : TestItem :=
  { test with abstime :=
      (getNextScheduleTimeInternal base.now test.period test.start test.stop test.interval.us false).2 }

inductive Turn
  | done (s : Schedule)
  | more (s : Schedule) (remaining : List ℕ)

def placeTest (base : EventBase) (s : Schedule) (test : TestItem) (remaining : Option (List ℕ)) :
    Option Turn :=
  if test.total < test.test.minTargets.toNat then
    (freeTestScheduleItem s.arrays test).map fun arrays => .done { s with arrays := arrays }
  else
    let merged :=
      if remaining = some [] ∧ test.test.maxTargets ≠ 1 then mergeScheduledTests base s test
      else some none
    match merged with
    | none => none
    | some (some items) =>
      -- the merged item owns the names now
      (freeTestScheduleItem s.arrays { test with resolve := [] }).map fun arrays =>
        .done { s with items := items, arrays := arrays }
    | some none =>
      let s := { s with items := s.items ++ [scheduleItem base test] }
      match remaining with
      | some (target :: targets) => some (.more s (target :: targets))
      | _ => some (.done s)

def scheduleTurn (env : Environment) (base : EventBase) (template : TestItem) (s : Schedule)
    (remaining : Option (List ℕ)) : Option Turn :=
  match populateTargetLists env.table template s.bufs remaining with
  | none => none
  | some (test, bufs, remaining) => placeTest base { s with bufs := bufs } test remaining

inductive LoopResult
  | returned (s : Schedule)
  | aborted
  | unfinished

def scheduleLoop (env : Environment) (base : EventBase) (template : TestItem) : ℕ → Schedule → Option (List ℕ) → LoopResult
  | 0, _, _ => .unfinished
  | n + 1, s, remaining =>
    match scheduleTurn env base template s remaining with
    | none => .aborted
    | some (.done s) => .returned s
    | some (.more s remaining) => scheduleLoop env base template n s (some remaining)

/-- Allocated while the keys are read, before any of the checks. -/
def parseArgs (s : Schedule) (d : TestDefinition) : Schedule × Option ℕ :=
  match d.args with
  | none => (s, none)
  | some args =>
    match parseParamString (some args) with
    | none => (s, none)
    | some words => ({ s with arrays := s.arrays ++ [some words] }, some s.arrays.length)

/-- What passes is the item every turn of the loop starts from. -/
def admitTest (env : Environment) (d : TestDefinition) (params : Option ℕ) : Option TestItem :=
  match d.testname.bind (getTestByName env.tests) with
  | none => none
  | some test =>
    match admitTimes d.period d.start d.stop d.frequency with
    | none => none
    | some times =>
      if d.args.isSome ∧ params = none then none
      else some {
        abstime := ⟨0, 0⟩
        interval := ⟨times.frequency / 1000000, times.frequency % 1000000⟩
        start := times.start
        stop := times.stop
        period := times.period
        test := test
        dests := []
        resolve := []
        testMeta := env.testMeta
        params := params }

def turns (targets : Option (List ℕ)) : ℕ := max 1 (targets.getD []).length

def createAndScheduleTest (env : Environment) (base : EventBase) (s : Schedule) (d : TestDefinition) : LoopResult :=
  match admitTest env d (parseArgs s d).2 with
  | none => .returned (parseArgs s d).1
  | some template =>
    scheduleLoop env base template (turns d.targets) (parseArgs s d).1 d.targets

/-- The events are collected in front of each other and freed one by one. -/
def clearTestSchedule (base : EventBase) (s : Schedule) : Option Schedule :=
  let events := ((base.order s.items.length).filterMap fun i => s.items[i]?).reverse
  (events.foldlM freeTestScheduleItem s.arrays).map fun arrays =>
    { s with items := [], arrays := arrays }

/-- The event of the item has fired, so it is no longer among those that are cleared. -/
def forkChild (base : EventBase) (s : Schedule) (i : ℕ) : Option Schedule :=
  clearTestSchedule base { s with items := s.items.eraseIdx i }

/-- Each schedule file brings its own scalars, and a reload starts with clearing the schedule. -/
inductive Reachable (ok : Environment → EventBase → Schedule → TestDefinition → Prop) :
    Schedule → Prop
  | empty (bufs : Buffers) : Reachable ok ⟨[], [], bufs⟩
  | document {s : Schedule} (h : Reachable ok s) (bufs : Buffers) :
      Reachable ok { s with bufs := bufs }
  | loaded {s s' : Schedule} {env : Environment} {base : EventBase} {d : TestDefinition}
      (h : Reachable ok s) (hok : ok env base s d)
      (hret : createAndScheduleTest env base s d = .returned s') : Reachable ok s'
  | cleared {s s' : Schedule} {base : EventBase} (h : Reachable ok s)
      (hclear : clearTestSchedule base s = some s') : Reachable ok s'

end Amplet.TestSchedule
