import Cocool.Timer.Queue

/-!
# The timers of an event base

`event.c` for the events of `evtimer_assign`: they wait for a timeout only and
are not persistent.  There is one priority, and no timeout is a common one.
What `gettime` reads is passed in.  The members of a `struct timeval` are
signed integers of `w` bits, and an operation that leaves their range faults.
-/

namespace Cocool.Timer

open Lib

/-- An operation on a member of a `struct timeval`. -/
def timeInt (w : ℕ) (n : ℤ) : Except Fault ℤ := checkedSigned .overflow w n

/-- `evutil_timeradd`. -/
def evutilTimeradd (w : ℕ) (t u : Timeval) : Except Fault Timeval := do
  let tvSec ← timeInt w (t.tvSec + u.tvSec)
  let tvUsec ← timeInt w (t.tvUsec + u.tvUsec)
  if tvUsec ≥ 1000000 then return ⟨← timeInt w (tvSec + 1), ← timeInt w (tvUsec - 1000000)⟩
  else return ⟨tvSec, tvUsec⟩

/-- `evutil_timersub`. -/
def evutilTimersub (w : ℕ) (t u : Timeval) : Except Fault Timeval := do
  let tvSec ← timeInt w (t.tvSec - u.tvSec)
  let tvUsec ← timeInt w (t.tvUsec - u.tvUsec)
  if tvUsec < 0 then return ⟨← timeInt w (tvSec - 1), ← timeInt w (tvUsec + 1000000)⟩
  else return ⟨tvSec, tvUsec⟩

/-- `EV_TIMEOUT`. -/
def evTimeoutBit : BitVec 32 := 1

/-- `res & EV_TIMEOUT` for a `short`. -/
def hasTimeout (res : BitVec 16) : Bool := res.signExtend 32 &&& evTimeoutBit ≠ 0

theorem hasTimeout_eq (res : BitVec 16) : hasTimeout res = res.getLsbD 0 := by
  have hand : res.signExtend 32 &&& evTimeoutBit =
      (BitVec.ofBool ((res.signExtend 32).getLsbD 0)).setWidth 32 :=
    BitVec.and_one_eq_setWidth_ofBool_getLsbD
  rw [hasTimeout, hand, BitVec.getLsbD_signExtend]
  cases res.getLsbD 0 <;> rfl

namespace Event

@[simps] def setTimeout (timeout : Bool) (ev : Event) : Event := { ev with timeout := timeout }

@[simps] def setActive (active : Bool) (ev : Event) : Event := { ev with active := active }

@[simps] def setRes (res : BitVec 16) (ev : Event) : Event := { ev with evRes := res }

end Event

/-- What the timers use of a `struct event_base`. -/
structure EventBase (ι : Type) where
  timeheap : MinHeap ι
  activequeue : List ι
  virtualEventCount : ℤ
  eventCount : ℤ
  eventCountMax : ℤ
  eventCountActive : ℤ
  eventCountActiveMax : ℤ

variable {ι : Type} [DecidableEq ι]

namespace EventBase

omit [DecidableEq ι] in
def ev (base : EventBase ι) (e : ι) : Event := base.timeheap.ev e

/-- A write to the fields of one event. -/
def withEvent (base : EventBase ι) (e : ι) (f : Event → Event) : EventBase ι :=
  { base with timeheap := { base.timeheap with
      ev := Function.update base.timeheap.ev e (f (base.timeheap.ev e)) } }

end EventBase

omit [DecidableEq ι] in
/-- `DECR_EVENT_COUNT` of an event that is not internal. -/
def decrEventCount (base : EventBase ι) : EventBase ι :=
  { base with eventCount := base.eventCount - 1 }

omit [DecidableEq ι] in
/-- `INCR_EVENT_COUNT` of an event that is not internal. -/
def incrEventCount (base : EventBase ι) : EventBase ι :=
  { base with
    eventCount := base.eventCount + 1
    eventCountMax := max base.eventCountMax (base.eventCount + 1) }

/-- `event_errx` ends the program if the event is not on the queue. -/
def eventQueueRemoveActive (base : EventBase ι) (e : ι) : Except Fault (EventBase ι) :=
  if (base.ev e).active then
    let base := (decrEventCount base).withEvent e (Event.setActive false)
    .ok { base with
      eventCountActive := base.eventCountActive - 1
      activequeue := base.activequeue.erase e }
  else .error .assertion

def eventQueueRemoveTimeout (base : EventBase ι) (e : ι) : Except Fault (EventBase ι) :=
  if (base.ev e).timeout then do
    let base := (decrEventCount base).withEvent e (Event.setTimeout false)
    let (timeheap, _) ← minHeapErase base.timeheap e
    return { base with timeheap := timeheap }
  else .error .assertion

def eventQueueInsertActive (base : EventBase ι) (e : ι) : EventBase ι :=
  if (base.ev e).active then base
  else
    let base := (incrEventCount base).withEvent e (Event.setActive true)
    { base with
      eventCountActive := base.eventCountActive + 1
      eventCountActiveMax := max base.eventCountActiveMax (base.eventCountActive + 1)
      activequeue := base.activequeue ++ [e] }

/-- The result of `min_heap_push_` is not looked at. -/
def eventQueueInsertTimeout (base : EventBase ι) (mem : Bool) (e : ι) :
    Except Fault (EventBase ι) :=
  if (base.ev e).timeout then .error .assertion
  else do
    let base := (incrEventCount base).withEvent e (Event.setTimeout true)
    let (timeheap, _) ← minHeapPush base.timeheap mem e
    return { base with timeheap := timeheap }

/-- `event_callback_activate_nolock_`, and whether it calls
`evthread_notify_base`. -/
def eventCallbackActivateNolock (base : EventBase ι) (e : ι) : EventBase ι × Bool :=
  if (base.ev e).active then (base, false) else (eventQueueInsertActive base e, true)

/-- `ev_res |= res`: the `int` result is stored in the `short`. -/
def addRes (evRes : BitVec 16) (res : BitVec 32) : BitVec 16 :=
  (evRes.signExtend 32 ||| res).setWidth 16

theorem hasTimeout_addRes (evRes : BitVec 16) (res : BitVec 32) :
    hasTimeout (addRes evRes res) = (hasTimeout evRes || hasTimeout (res.setWidth 16)) := by
  rw [hasTimeout_eq, hasTimeout_eq, hasTimeout_eq, addRes, BitVec.getLsbD_setWidth,
    BitVec.getLsbD_or, BitVec.getLsbD_signExtend, BitVec.getLsbD_setWidth]
  rfl

def eventActiveNolock (base : EventBase ι) (e : ι) (res : BitVec 32) : EventBase ι × Bool :=
  if (base.ev e).active then
    (base.withEvent e (Event.setRes (addRes (base.ev e).evRes res)), false)
  else eventCallbackActivateNolock (base.withEvent e (Event.setRes (res.setWidth 16))) e

/-- `if (ev->ev_flags & EVLIST_TIMEOUT) event_queue_remove_timeout(base, ev)`. -/
def dropTimeout (base : EventBase ι) (e : ι) : Except Fault (EventBase ι) :=
  if (base.ev e).timeout then eventQueueRemoveTimeout base e else .ok base

def eventDelNolock (base : EventBase ι) (e : ι) : Except Fault (EventBase ι) := do
  let base ← dropTimeout base e
  if (base.ev e).active then eventQueueRemoveActive base e else .ok base

/-- A timeout whose callback has not run yet is taken back. -/
def takeBack (base : EventBase ι) (e : ι) : Except Fault (EventBase ι) :=
  if (base.ev e).active ∧ hasTimeout (base.ev e).evRes then
    eventQueueRemoveActive base e
  else .ok base

omit [DecidableEq ι] in
/-- The room that `event_add_nolock_` asks for first. -/
def reserveTimeout (base : EventBase ι) (mem : Bool) (e : ι) : EventBase ι × ℤ :=
  if (base.ev e).timeout then (base, 0)
  else
    let (timeheap, res) := minHeapReserve base.timeheap mem (wrapUnsigned 32 (1 + base.timeheap.n))
    ({ base with timeheap := timeheap }, res)

omit [DecidableEq ι] in
/-- Whether the thread of the loop has to wake up earlier. -/
def needsNotify (base : EventBase ι) (e : ι) (now : Timeval) : Except Fault Bool :=
  if minHeapEltIsTop base.timeheap e then .ok true
  else do
    match ← minHeapTop base.timeheap with
    | none => return false
    | some top => return evutilTimercmp (base.ev top).evTimeout now (· < ·)

/-- The deadline that `event_add_nolock_` stores. -/
def deadline (w : ℕ) (tvIsAbsolute : Bool) (now tv : Timeval) : Except Fault Timeval :=
  if tvIsAbsolute then .ok tv else evutilTimeradd w now tv

/-- `event_add_nolock_`, and whether it calls `evthread_notify_base`.  `mem`
and `memPush` tell whether the two calls of `min_heap_reserve_` find memory. -/
def eventAddNolock (w : ℕ) (base : EventBase ι) (e : ι) (tv : Option Timeval)
    (tvIsAbsolute : Bool) (now : Timeval) (mem memPush : Bool) :
    Except Fault (EventBase ι × ℤ × Bool) :=
  match tv with
  | none => .ok (base, 0, false)
  | some tv =>
      let (base, res) := reserveTimeout base mem e
      if res = -1 then .ok (base, -1, false)
      else do
        let base ← dropTimeout base e
        let base ← takeBack base e
        let evTimeout ← deadline w tvIsAbsolute now tv
        let base := { base with timeheap := base.timeheap.withTimeout e evTimeout }
        let base ← eventQueueInsertTimeout base memPush e
        return (base, 0, ← needsNotify base e now)

omit [DecidableEq ι] in
/-- How long the loop may sleep; forever if there is no timeout. -/
def timeoutNext (w : ℕ) (base : EventBase ι) (now : Timeval) : Except Fault (Option Timeval) := do
  match ← minHeapTop base.timeheap with
  | none => return none
  | some e =>
      if evutilTimercmp (base.ev e).evTimeout now (· ≤ ·) then return some ⟨0, 0⟩
      else
        let tv ← evutilTimersub w (base.ev e).evTimeout now
        if tv.tvSec ≥ 0 ∧ tv.tvUsec ≥ 0 then return some tv else throw .assertion

/-- The `while` loop of `timeout_process`. -/
def timeoutProcessLoop (now : Timeval) : ℕ → EventBase ι → Except Fault (EventBase ι)
  | 0, _ => .error .fuel
  | fuel + 1, base => do
      match ← minHeapTop base.timeheap with
      | none => return base
      | some e =>
          if evutilTimercmp (base.ev e).evTimeout now (· > ·) then return base
          else
            let base ← eventDelNolock base e
            timeoutProcessLoop now fuel (eventActiveNolock base e evTimeoutBit).1

def timeoutProcess (base : EventBase ι) (now : Timeval) : Except Fault (EventBase ι) :=
  if base.timeheap.n = 0 then .ok base
  else timeoutProcessLoop now (base.timeheap.n + 1) base

/-- One pass of the loop of `event_process_active_single_queue` up to the call
of the callback, and the argument of the call. -/
def processActiveHead (base : EventBase ι) : Except Fault (EventBase ι × Option (ι × BitVec 16)) :=
  match base.activequeue with
  | [] => .ok (base, none)
  | e :: _ => do
      let base ← eventDelNolock base e
      return (base, some (e, (base.ev e).evRes))

omit [DecidableEq ι] in
def eventHaveevents (base : EventBase ι) : Bool :=
  base.virtualEventCount > 0 || base.eventCount > 0

omit [DecidableEq ι] in
/-- The loop of `event_base_loop` ends when nothing is left. -/
def loopDone (base : EventBase ι) : Bool :=
  !eventHaveevents base && base.eventCountActive = 0

end Cocool.Timer
