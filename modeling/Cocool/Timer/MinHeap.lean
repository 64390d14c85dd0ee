import Cocool.Lib.Ints
import Mathlib.Logic.Function.Basic

/-!
# The timer heap of libevent

`minheap-internal.h`: an array of pointers to events, with the earliest
timeout at the root.  An event records its own position, which is -1 while it
is not in the heap.
-/

namespace Cocool.Timer

open Lib

/-- `struct timeval`. -/
structure Timeval where
  tvSec : ℤ
  tvUsec : ℤ

/-- `evutil_timercmp`. -/
def evutilTimercmp (t u : Timeval) (cmp : ℤ → ℤ → Bool) : Bool :=
  if t.tvSec = u.tvSec then cmp t.tvUsec u.tvUsec else cmp t.tvSec u.tvSec

/-- What the timers use of a `struct event`.  `timeout` and `active` are the
flags `EVLIST_TIMEOUT` and `EVLIST_ACTIVE`; `ev_res` is a `short`. -/
structure Event where
  evTimeout : Timeval
  minHeapIdx : ℤ
  timeout : Bool
  active : Bool
  evRes : BitVec 16

inductive Fault
  | bounds
  | uninitialised
  | assertion
  | overflow
  | fuel
  deriving DecidableEq

/-- `struct min_heap` with the events in memory.  An entry of `p` that nothing
was stored to holds no event. -/
structure MinHeap (ι : Type) where
  p : ℕ → Option ι
  n : ℕ
  a : ℕ
  ev : ι → Event

variable {ι : Type} [DecidableEq ι]

namespace MinHeap

omit [DecidableEq ι] in
def idx (s : MinHeap ι) (e : ι) : ℤ := (s.ev e).minHeapIdx

def withIdx (s : MinHeap ι) (e : ι) (i : ℤ) : MinHeap ι :=
  { s with ev := Function.update s.ev e { s.ev e with minHeapIdx := i } }

def withTimeout (s : MinHeap ι) (e : ι) (u : Timeval) : MinHeap ι :=
  { s with ev := Function.update s.ev e { s.ev e with evTimeout := u } }

omit [DecidableEq ι] in
/-- `p[i]`. -/
def read (s : MinHeap ι) (i : ℕ) : Except Fault ι :=
  if i < s.a then
    match s.p i with
    | none => .error .uninitialised
    | some e => .ok e
  else .error .bounds

def placed (s : MinHeap ι) (i : ℕ) (e : ι) : MinHeap ι :=
  { s with p := Function.update s.p i (some e) }.withIdx e (wrapSigned 32 i)

/-- `(p[i] = e)->ev_timeout_pos.min_heap_idx = i`. -/
def place (s : MinHeap ι) (i : ℕ) (e : ι) : Except Fault (MinHeap ι) :=
  if i < s.a then .ok (s.placed i e) else .error .bounds

end MinHeap

omit [DecidableEq ι] in
/-- `min_heap_elem_greater`. -/
def minHeapElemGreater (s : MinHeap ι) (e f : ι) : Bool :=
  evutilTimercmp (s.ev e).evTimeout (s.ev f).evTimeout (· > ·)

omit [DecidableEq ι] in
def minHeapCtor (s : MinHeap ι) : MinHeap ι := { s with p := fun _ ↦ none, n := 0, a := 0 }

def minHeapElemInit (s : MinHeap ι) (e : ι) : MinHeap ι := s.withIdx e (-1)

omit [DecidableEq ι] in
def minHeapEltIsTop (s : MinHeap ι) (e : ι) : Bool := s.idx e = 0

omit [DecidableEq ι] in
def minHeapTop (s : MinHeap ι) : Except Fault (Option ι) :=
  if s.n ≠ 0 then some <$> s.read 0 else .ok none

/-- The new capacity in `min_heap_reserve_`. -/
def reserved (a n : ℕ) : ℕ :=
  let a := if a ≠ 0 then wrapUnsigned 32 (a * 2) else 8
  if a < n then n else a

omit [DecidableEq ι] in
/-- `mem` tells whether `mm_realloc` has a block. -/
def minHeapReserve (s : MinHeap ι) (mem : Bool) (n : ℕ) : MinHeap ι × ℤ :=
  if s.a < n then
    if mem then
      ({ s with p := fun i ↦ if i < s.a then s.p i else none, a := reserved s.a n }, 0)
    else (s, -1)
  else (s, 0)

/-- `(hole_index - 1) / 2`, unsigned. -/
def holeParent (holeIndex : ℕ) : ℕ := wrapUnsigned 32 (holeIndex - 1) / 2

/-- The `while` loop of `min_heap_shift_up_`: where it stops. -/
def shiftUpLoop (e : ι) : ℕ → ℕ → MinHeap ι → Except Fault (ℕ × MinHeap ι)
  | 0, _, _ => .error .fuel
  | fuel + 1, holeIndex, s =>
      if holeIndex = 0 then .ok (holeIndex, s)
      else do
        let parent ← s.read (holeParent holeIndex)
        if minHeapElemGreater s parent e then
          let s ← s.place holeIndex parent
          shiftUpLoop e fuel (holeParent holeIndex) s
        else return (holeIndex, s)

def minHeapShiftUp (s : MinHeap ι) (holeIndex : ℕ) (e : ι) : Except Fault (MinHeap ι) := do
  let (holeIndex, s) ← shiftUpLoop e (holeIndex + 1) holeIndex s
  s.place holeIndex e

/-- The `do` loop moves the hole once before it compares. -/
def minHeapShiftUpUnconditional (s : MinHeap ι) (holeIndex : ℕ) (e : ι) :
    Except Fault (MinHeap ι) := do
  let parent ← s.read (holeParent holeIndex)
  let s ← s.place holeIndex parent
  minHeapShiftUp s (holeParent holeIndex) e

omit [DecidableEq ι] in
/-- `min_child -= min_child == n || p[min_child] > p[min_child - 1]`. -/
def minChildOf (s : MinHeap ι) (minChild : ℕ) : Except Fault ℕ :=
  if minChild = s.n then .ok (minChild - 1)
  else do
    let right ← s.read minChild
    let left ← s.read (minChild - 1)
    return if minHeapElemGreater s right left then minChild - 1 else minChild

/-- The `while` loop of `min_heap_shift_down_`. -/
def shiftDownLoop (e : ι) : ℕ → ℕ → MinHeap ι → Except Fault (ℕ × MinHeap ι)
  | 0, _, _ => .error .fuel
  | fuel + 1, holeIndex, s =>
      if wrapUnsigned 32 (2 * (holeIndex + 1)) ≤ s.n then do
        let minChild ← minChildOf s (wrapUnsigned 32 (2 * (holeIndex + 1)))
        let c ← s.read minChild
        if minHeapElemGreater s e c then
          let s ← s.place holeIndex c
          shiftDownLoop e fuel minChild s
        else return (holeIndex, s)
      else .ok (holeIndex, s)

def minHeapShiftDown (s : MinHeap ι) (holeIndex : ℕ) (e : ι) : Except Fault (MinHeap ι) := do
  let (holeIndex, s) ← shiftDownLoop e (s.n + 1) holeIndex s
  s.place holeIndex e

def minHeapPush (s : MinHeap ι) (mem : Bool) (e : ι) : Except Fault (MinHeap ι × ℤ) :=
  let (s, res) := minHeapReserve s mem (wrapUnsigned 32 (s.n + 1))
  if res ≠ 0 then .ok (s, -1)
  else do
    let s ← minHeapShiftUp { s with n := wrapUnsigned 32 (s.n + 1) } s.n e
    return (s, 0)

def minHeapPop (s : MinHeap ι) : Except Fault (MinHeap ι × Option ι) :=
  if s.n ≠ 0 then do
    let e ← s.read 0
    let s := { s with n := wrapUnsigned 32 (s.n - 1) }
    let last ← s.read s.n
    let s ← minHeapShiftDown s 0 last
    return (s.withIdx e (-1), some e)
  else .ok (s, none)

omit [DecidableEq ι] in
/-- `idx > 0 && min_heap_elem_greater(p[parent], f)`. -/
def belowParent (s : MinHeap ι) (idx : ℤ) (f : ι) : Except Fault Bool :=
  if idx > 0 then
    (minHeapElemGreater s · f) <$> s.read (wrapUnsigned 32 ((idx - 1).tdiv 2))
  else .ok false

/-- The part that `min_heap_erase_` and `min_heap_adjust_` have in common: `f`
comes to the position `idx`. -/
def resift (s : MinHeap ι) (idx : ℤ) (f : ι) : Except Fault (MinHeap ι) := do
  let up ← belowParent s idx f
  if up then minHeapShiftUpUnconditional s (wrapUnsigned 32 idx) f
  else minHeapShiftDown s (wrapUnsigned 32 idx) f

def minHeapErase (s : MinHeap ι) (e : ι) : Except Fault (MinHeap ι × ℤ) :=
  if s.idx e ≠ -1 then do
    let s := { s with n := wrapUnsigned 32 (s.n - 1) }
    let last ← s.read s.n
    let s ← resift s (s.idx e) last
    return (s.withIdx e (-1), 0)
  else .ok (s, -1)

def minHeapAdjust (s : MinHeap ι) (mem : Bool) (e : ι) : Except Fault (MinHeap ι × ℤ) :=
  if s.idx e = -1 then minHeapPush s mem e
  else do return (← resift s (s.idx e) e, 0)

end Cocool.Timer
