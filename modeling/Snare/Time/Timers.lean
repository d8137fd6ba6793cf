import Snare.Lib.SortedMap
import Snare.Lib.SwapRemove
import Snare.Lib.U64

/-!
# Timer tables

`Entry` and `Timers` of `clock.rs`: what is due at each instant, and the cross index from a
registered wake to its place in its entry. A waker is named by the id it was registered under
(`wake_id`), so the wakers a function hands out are a list of ids.

An `unwrap` or an index that the source takes for granted is an `Option` here: `none` is the panic.
-/

namespace Snare.Time

/-- The waits, one-shot events and wakers due at one instant. -/
structure Entry where
  waits : Nat := 0
  events : Nat := 0
  /-- Wakers by id, each with the lineage of the thread that registered it. -/
  wakers : List (Nat × Option Nat) := []
  /-- A delivered wake holds its deadline until the task polls or cancels its timer. -/
  awaiting : List Nat := []
  /-- The thread lineage of each of `waits`. -/
  owners : List Nat := []
  deriving DecidableEq

def Entry.isEmpty (e : Entry) : Bool :=
  e.waits == 0 && e.events == 0 && e.wakers.isEmpty && e.awaiting.isEmpty

/-- Everything due here, for an executive's count of what a move released. -/
def Entry.count (e : Entry) : Nat := e.waits + e.events + e.wakers.length

inductive WakeSlot where
  /-- `wakers[i]`, not yet delivered. -/
  | pending (i : Nat)
  /-- `awaiting[i]`, delivered and holding its deadline. -/
  | held (i : Nat)
  deriving DecidableEq

structure Timers where
  entries : SortedMap Nat Entry := .empty
  /-- Each registered wake's deadline and place in its entry. -/
  wakeDeadlines : SortedMap Nat (Nat × WakeSlot) := .empty
  deriving DecidableEq

variable (t : Timers)

/-- Changes the entry at an instant, made if there is none (`entry(at).or_default()`). -/
def Timers.modify (at_ : Nat) (f : Entry → Entry) : Timers :=
  { t with entries := t.entries.alter at_ fun e => some (f (e.getD {})) }

def Timers.dropEmpty (at_ : Nat) : Timers :=
  { t with entries := t.entries.alter at_ (Option.filter fun e => !e.isEmpty) }

def Timers.registerWake (at_ id : Nat) (owner : Option Nat) : Timers :=
  let place := ((t.entries.get? at_).getD {}).wakers.length
  let t := t.modify at_ fun e => { e with wakers := e.wakers ++ [(id, owner)] }
  { t with wakeDeadlines := t.wakeDeadlines.insert id (at_, .pending place) }

def Timers.addPending (wake : Nat) (event : Bool) (me : Nat) : Timers :=
  t.modify wake fun e =>
    if event then { e with events := e.events + 1 }
    else { e with waits := e.waits + 1, owners := e.owners ++ [me] }

/-- The index once the drained wakers are held at `place` and on, or forgotten. -/
def reindex (at_ : Nat) (hold : Bool) :
    List (Nat × Option Nat) → Nat → SortedMap Nat (Nat × WakeSlot) → SortedMap Nat (Nat × WakeSlot)
  | [], _, index => index
  | (id, _) :: rest, place, index =>
    if hold then reindex at_ hold rest (place + 1) (index.insert id (at_, .held place))
    else reindex at_ hold rest place (index.erase id)

/-- Takes the wakers due at `at_`; with `hold` each goes on holding its deadline. The wakers taken,
which are none when there were none. -/
def Timers.takeWakersAt (at_ : Nat) (hold : Bool) : Option (Timers × List Nat) :=
  (t.entries.get? at_).map fun e =>
    let ids := e.wakers.map Prod.fst
    ({ entries := t.entries.insert at_
         { e with wakers := [], awaiting := if hold then e.awaiting ++ ids else e.awaiting }
       wakeDeadlines := reindex at_ hold e.wakers e.awaiting.length t.wakeDeadlines }, ids)

inductive Cancel where
  /-- The id is not registered here. -/
  | absent
  /-- Cancelled; the waker if it was not yet delivered. -/
  | done (t : Timers) (waker : Option Nat)
  | panicked

def Timers.cancelWake (id : Nat) : Cancel :=
  match t.wakeDeadlines.get? id with
  | none => .absent
  | some (at_, slot) =>
    let index := t.wakeDeadlines.erase id
    match t.entries.get? at_ with
    | none => .panicked
    | some e =>
      match slot with
      | .pending i =>
        match e.wakers[i]? with
        | none => .panicked
        | some (waker, _) =>
          let wakers := swapRemove e.wakers i
          let index := match wakers[i]?.map Prod.fst with
            | some moved => index.insert moved (at_, .pending i)
            | none => index
          let t : Timers := ⟨t.entries.insert at_ { e with wakers }, index⟩
          .done (t.dropEmpty at_) (some waker)
      | .held i =>
        if i < e.awaiting.length then
          let awaiting := swapRemove e.awaiting i
          let index := match awaiting[i]? with
            | some moved => index.insert moved (at_, .held i)
            | none => index
          let t : Timers := ⟨t.entries.insert at_ { e with awaiting }, index⟩
          .done (t.dropEmpty at_) none
        else .panicked

/-- Drops one wait at `wake` and an owner of it: the caller's own lineage, or else the last. `none`
when there is no wait there. -/
def Timers.unregisterTimer (wake me : Nat) : Option Timers :=
  match t.entries.get? wake with
  | some e =>
    if e.waits > 0 then
      let owners := match e.owners.findIdx? (· == me) with
        | some i => swapRemove e.owners i
        | none => e.owners.dropLast
      let t : Timers :=
        { t with entries := t.entries.insert wake { e with waits := e.waits - 1, owners } }
      some (t.dropEmpty wake)
    else none
  | none => none

def Timers.unregisterEvent (wake : Nat) : Timers :=
  match t.entries.get? wake with
  | some e =>
    if e.events > 0 then
      let t : Timers :=
        { t with entries := t.entries.insert wake { e with events := e.events - 1 } }
      t.dropEmpty wake
    else t
  | none => t

def Entry.ids (e : Entry) : List Nat := e.awaiting ++ e.wakers.map Prod.fst

/-- Removes every entry at or before `upto`: whether there was one, and their wakers. -/
def takeUpto (upto : Nat) : Timers × Bool × List Nat :=
  let first := satAdd upto 1
  let due := t.entries.entries.filter fun e => e.1 < first
  ({ entries := t.entries.retain fun at_ _ => first ≤ at_
     wakeDeadlines := (due.flatMap fun e => e.2.ids).foldl SortedMap.erase t.wakeDeadlines },
    !due.isEmpty, due.flatMap fun e => e.2.wakers.map Prod.fst)

def Timers.nextAfter (now : Nat) : Option Nat :=
  (t.entries.entries.find? fun e => satAdd now 1 ≤ e.1).map Prod.fst

def Timers.reached (before after : Nat) : Bool :=
  t.entries.entries.any fun e => satAdd before 1 ≤ e.1 && e.1 ≤ after

def reachedWait (now : Nat) : Bool :=
  t.entries.entries.any fun e => e.1 ≤ now && (e.2.waits > 0 || !e.2.awaiting.isEmpty)

/-- One instant of `fire_upto`: what was due there is counted if it is after `from_`, its events go
and its wakers are taken. -/
def Timers.fireAt (hold foreign : Bool) (from_ : Nat) (acc : Timers × Nat × List Nat) (at_ : Nat) :
    Timers × Nat × List Nat :=
  let (t, count, wakers) := acc
  match t.entries.get? at_ with
  | none => acc
  | some e =>
    let count := if !foreign && at_ > from_ then min (count + e.count) (2 ^ 32 - 1) else count
    let t : Timers := { t with entries := t.entries.insert at_ { e with events := 0 } }
    match t.takeWakersAt at_ hold with
    | none => acc
    | some (t, taken) => (t.dropEmpty at_, count, wakers ++ taken)

/-- The part of `fire_upto` on one table. -/
def Timers.fireUpto (hold foreign : Bool) (from_ upto : Nat) :
    Timers × Nat × List Nat :=
  let due := (t.entries.entries.filter fun e => e.1 ≤ upto).map Prod.fst
  due.foldl (Timers.fireAt hold foreign from_) (t, 0, [])

def Timers.takeAt (hold : Bool) (acc : Timers × List Nat) (at_ : Nat) : Timers × List Nat :=
  match acc.1.takeWakersAt at_ hold with
  | none => acc
  | some (t, taken) => (t.dropEmpty at_, acc.2 ++ taken)

def Timers.takeWakers (hold : Bool) (upto : Nat) : Timers × List Nat :=
  let due := t.entries.entries.filter fun e => e.1 ≤ upto && !e.2.wakers.isEmpty
  (due.map Prod.fst).foldl (Timers.takeAt hold) (t, [])

end Snare.Time
