import Cocool.Lib.Heap
import Cocool.Lib.Ints
import Mathlib.Data.List.Range
import Mathlib.Logic.Function.Basic
import Mathlib.Data.Int.Notation

/-!
# The indexed heap

The max-heap of `co_heap.c`, ordered by reference count.  `proot` is an
array of pointers to elements the client owns, and every element records
its own position there.  Indices are kept as integers, since a caller can
hand over a stale `heapIdx`.
-/

namespace Cocool.Heap

/-- `struct cocol_heap`. -/
structure CocolHeap where
  code : UInt8
  refConut : ℤ
  heapIdx : ℤ
  deriving DecidableEq

inductive Fault
  | assertion
  | index
  | null
  | overflow
  deriving DecidableEq

/-- `struct cocol_heap_header` together with the elements in memory.
`room` is how many pointers the block behind `proot` holds, and `none` is
the NULL pointer. -/
structure CocolHeapHeader (ι : Type) where
  proot : ℕ → Option ι
  room : ℕ
  elem : ι → CocolHeap
  heapSize : ℕ
  totalSize : ℕ

section

variable {ι : Type} [DecidableEq ι]

namespace CocolHeapHeader

/-- The element behind `proot[i]`. -/
def read (s : CocolHeapHeader ι) (i : ℤ) : Except Fault ι :=
  if 0 ≤ i ∧ i < s.room then
    match s.proot i.toNat with
    | none => .error .null
    | some x => .ok x
  else .error .index

/-- `proot[i] = x; x->heapIdx = i`. -/
def place (s : CocolHeapHeader ι) (i : ℤ) (x : ι) : Except Fault (CocolHeapHeader ι) :=
  if 0 ≤ i ∧ i < s.room then
    .ok { s with
      proot := Function.update s.proot i.toNat (some x)
      elem := Function.update s.elem x { s.elem x with heapIdx := i } }
  else .error .index

/-- `proot[i]`, which may be the NULL pointer. -/
def load (s : CocolHeapHeader ι) (i : ℤ) : Except Fault (Option ι) :=
  if 0 ≤ i ∧ i < s.room then .ok (s.proot i.toNat) else .error .index

end CocolHeapHeader

/-- `cocol_heap_elem_greater(a, b)`. -/
def cocolHeapElemGreater (s : CocolHeapHeader ι) (a b : ι) : Bool :=
  (s.elem b).refConut < (s.elem a).refConut

/-- `(heapIndex - 1) / 2` in unsigned arithmetic, where `0 - 1` wraps. -/
def unsignedParent (heapIndex : ℕ) : ℕ :=
  if heapIndex = 0 then 2147483647 else (heapIndex - 1) / 2

/-! ## Moving up -/

/-- The `while` loop of the two `shift_up` functions, with `heapIndex` as
the bound on its turns: the position where it stops. -/
def shiftUpLoop (pcont : ι) :
    ℕ → ℕ → CocolHeapHeader ι → Except Fault (ℕ × CocolHeapHeader ι)
  | 0, heapIndex, s => .ok (heapIndex, s)
  | n + 1, heapIndex, s =>
      if heapIndex = 0 then .ok (heapIndex, s)
      else do
        let p ← s.read (unsignedParent heapIndex)
        if cocolHeapElemGreater s pcont p then
          let s ← s.place heapIndex p
          shiftUpLoop pcont n (unsignedParent heapIndex) s
        else .ok (heapIndex, s)

def cocolHeapShiftUp (s : CocolHeapHeader ι) (heapIndex : ℕ) (pcont : ι) :
    Except Fault (CocolHeapHeader ι) :=
  if heapIndex = 0 then .error .assertion
  else do
    let (heapIndex, s) ← shiftUpLoop pcont heapIndex heapIndex s
    s.place heapIndex pcont

def cocolHeapShiftUpFroce (s : CocolHeapHeader ι) (heapIndex : ℕ) (pcont : ι) :
    Except Fault (CocolHeapHeader ι) := do
  -- `do … while`: the first move is not compared
  let p ← s.read (unsignedParent heapIndex)
  let s ← s.place heapIndex p
  let (heapIndex, s) ← shiftUpLoop pcont heapIndex (unsignedParent heapIndex) s
  s.place heapIndex pcont

/-! ## Moving down -/

/-- The `while` loop of `cocol_heap_shift_down`, with `heapSize` as the
bound on its turns: `heapIndex` and `childIdx` as it leaves them.  Here they
are integers; `shiftDownLoopInt` below has them as `int`. -/
def shiftDownLoop (pcont : ι) :
    ℕ → ℤ → CocolHeapHeader ι → Except Fault (ℤ × ℤ × CocolHeapHeader ι)
  | 0, heapIndex, s => .ok (heapIndex, 2 * (heapIndex + 1), s)
  | n + 1, heapIndex, s =>
      let childIdx := 2 * (heapIndex + 1)
      if childIdx < s.heapSize then do
        let l ← s.read (childIdx - 1)
        let r ← s.read childIdx
        let childIdx := if cocolHeapElemGreater s l r then childIdx - 1 else childIdx
        let c ← s.read childIdx
        if cocolHeapElemGreater s pcont c then .ok (heapIndex, childIdx, s)
        else
          let s ← s.place heapIndex c
          shiftDownLoop pcont n childIdx s
      else .ok (heapIndex, childIdx, s)

def cocolHeapShiftDown (s : CocolHeapHeader ι) (heapIndex : ℤ) (pcont : ι) :
    Except Fault (CocolHeapHeader ι) := do
  let (heapIndex, childIdx, s) ← shiftDownLoop pcont s.heapSize heapIndex s
  if childIdx = s.heapSize then
    let c ← s.read (childIdx - 1)
    if cocolHeapElemGreater s c pcont then
      let s ← s.place heapIndex c
      s.place (childIdx - 1) pcont
    else s.place heapIndex pcont
  else s.place heapIndex pcont

/-- `2 * (heapIndex + 1)` in `int`. -/
def childIndexInt (heapIndex : ℤ) : Except Fault ℤ := do
  Lib.checkedSigned .overflow 32 (2 * (← Lib.checkedSigned .overflow 32 (heapIndex + 1)))

def shiftDownLoopInt (pcont : ι) :
    ℕ → ℤ → CocolHeapHeader ι → Except Fault (ℤ × ℤ × CocolHeapHeader ι)
  | 0, heapIndex, s => do return (heapIndex, ← childIndexInt heapIndex, s)
  | n + 1, heapIndex, s => do
      let childIdx ← childIndexInt heapIndex
      if childIdx < s.heapSize then do
        let l ← s.read (childIdx - 1)
        let r ← s.read childIdx
        let childIdx := if cocolHeapElemGreater s l r then childIdx - 1 else childIdx
        let c ← s.read childIdx
        if cocolHeapElemGreater s pcont c then .ok (heapIndex, childIdx, s)
        else
          let s ← s.place heapIndex c
          shiftDownLoopInt pcont n childIdx s
      else .ok (heapIndex, childIdx, s)

/-! ## Inserting and deleting -/

/-- The last statement of `cocol_heap_insert`, once there is room. -/
def insertElem (s : CocolHeapHeader ι) (pcont : ι) : Except Fault (CocolHeapHeader ι) :=
  cocolHeapShiftUp { s with heapSize := s.heapSize + 1 } s.heapSize pcont

def cocolHeapRootDelete (s : CocolHeapHeader ι) : Except Fault (CocolHeapHeader ι) :=
  if s.heapSize = 0 then .ok s
  else do
    let last ← s.read (s.heapSize - 1)
    cocolHeapShiftDown { s with heapSize := s.heapSize - 1 } 0 last

/-- The return value is `0`, or `-1` with nothing done. -/
def cocolHeapElemDelete (s : CocolHeapHeader ι) (pcont : ι) :
    Except Fault (ℤ × CocolHeapHeader ι) :=
  let heapIdx := (s.elem pcont).heapIdx
  -- `int` division, which rounds towards zero
  let parent := (heapIdx - 1).tdiv 2
  if heapIdx = -1 ∧ s.heapSize < 1 then .ok (-1, s)
  else do
    let last ← s.read (s.heapSize - 1)
    let t := { s with heapSize := s.heapSize - 1 }
    let up : Bool ←
      if 0 < heapIdx then (s.read parent).map fun p ↦ cocolHeapElemGreater s last p
      else .ok false
    if up then (cocolHeapShiftUpFroce t heapIdx.toNat last).map fun t ↦ (0, t)
    else (cocolHeapShiftDown t heapIdx last).map fun t ↦ (0, t)

/-! ## Setting up and growing -/

/-- How many pointers fit into the block that `cocol_heap_init` and
`cocol_heap_insert` ask for, `COCOL_HEAP_SIZE * sizeof(struct cocol_heap)`
bytes: 128 structures of 12 bytes, pointers of 8. -/
def blockRoom : ℕ := 128 * 12 / 8

/-- `cocol_heap_header_init`, with the elements in memory at that time. -/
def cocolHeapHeaderInit (elem : ι → CocolHeap) (totalSize : ℕ) : CocolHeapHeader ι :=
  { proot := fun _ ↦ none, room := 0, elem, heapSize := 0, totalSize }

/-- `mem` tells whether the allocation succeeds.  The source assigns to
`proot->refConut`, where `proot` points to pointers: what the first entry
points to afterwards is `first`. -/
def cocolHeapInit (s : CocolHeapHeader ι) (mem : Bool) (first : Option ι) :
    Except Fault (ℤ × CocolHeapHeader ι) :=
  if s.totalSize < s.heapSize then .error .assertion
  else if s.heapSize = 0 then
    if mem then
      .ok (0, { s with
        proot := Function.update (fun _ ↦ none) 0 first
        room := blockRoom
        elem := fun x ↦ if first = some x then ⟨0, 1, 0⟩ else s.elem x
        heapSize := 1
        totalSize := 128 })
    else .ok (-1, { s with proot := fun _ ↦ none, room := 0 })
  else .ok (0, s)

/-- The block after `cocol_calloc`: what both blocks have room for stays,
and `rest` is what the new memory holds. -/
def resized (s : CocolHeapHeader ι) (rest : ℕ → Option ι) : CocolHeapHeader ι :=
  { s with
    proot := fun i ↦ if i < min s.room blockRoom then s.proot i else rest i
    room := blockRoom }

/-- `rest` is `none` when `cocol_calloc` fails.  The `memset` clears the
first eight bytes of an element: its `code` and its `refConut`. -/
def cocolHeapInsert (s : CocolHeapHeader ι) (pcont : ι) (rest : Option (ℕ → Option ι)) :
    Except Fault (ℤ × CocolHeapHeader ι) :=
  if 1 < (s.totalSize : ℤ) - s.heapSize then
    match rest with
    | none => .ok (-1, s)
    | some rest => do
        let t := resized s rest
        let x ← t.read ((s.totalSize : ℤ) - 1)
        let t := { t with
          elem := Function.update t.elem x { t.elem x with code := 0, refConut := 0 }
          totalSize := s.totalSize + 128 }
        (insertElem t pcont).map fun t ↦ (0, t)
  else (insertElem s pcont).map fun t ↦ (0, t)

/-! ## Rebuilding and releasing -/

/-- The loop of `cocol_heap_adjust`, with `isize` as the bound on its
turns. -/
def adjustLoop (isize : ℕ) : ℕ → CocolHeapHeader ι → Except Fault (CocolHeapHeader ι)
  | 0, s => .ok s
  | n + 1, s =>
      if s.heapSize < isize then do
        match ← s.load s.heapSize with
        | none => .error .assertion
        | some pcont =>
            let s ← cocolHeapShiftUp s s.heapSize pcont
            adjustLoop isize n { s with heapSize := s.heapSize + 1 }
      else .ok s

/-- `proot` is NULL when there is no block. -/
def cocolHeapAdjust (s : CocolHeapHeader ι) : Except Fault (CocolHeapHeader ι) :=
  if s.room = 0 ∨ s.heapSize ≤ 1 then .ok s
  else adjustLoop s.heapSize s.heapSize { s with heapSize := 1 }

/-- The last element, when it is dead, without its place in the heap. -/
def popped (s : CocolHeapHeader ι) (x : ι) : CocolHeapHeader ι :=
  { s with
    heapSize := s.heapSize - 1
    elem := Function.update s.elem x { s.elem x with heapIdx := -1 } }

/-- The loop of `cocol_heap_elem_free`. -/
def elemFreeLoop : ℕ → CocolHeapHeader ι → Except Fault (CocolHeapHeader ι)
  | 0, s => .ok s
  | isize + 1, s => do
      let x ← s.read isize
      if (s.elem x).refConut = -1 then elemFreeLoop isize (popped s x) else .ok s

def cocolHeapElemFree (s : CocolHeapHeader ι) : Except Fault (CocolHeapHeader ι) :=
  elemFreeLoop s.heapSize s

/-! ## Calls -/

inductive HeapCall (ι : Type)
  | insert (pcont : ι) (rest : Option (ℕ → Option ι))
  | rootDelete
  | elemDelete (pcont : ι)
  | elemFree

/-- The value a call returns, `0` for the two that return nothing, and the
heap after it. -/
def heapCall (s : CocolHeapHeader ι) : HeapCall ι → Except Fault (ℤ × CocolHeapHeader ι)
  | .insert pcont rest => cocolHeapInsert s pcont rest
  | .rootDelete => (cocolHeapRootDelete s).map fun t ↦ (0, t)
  | .elemDelete pcont => cocolHeapElemDelete s pcont
  | .elemFree => (cocolHeapElemFree s).map fun t ↦ (0, t)

def heapStep (s : CocolHeapHeader ι) (a : HeapCall ι) : Except Fault (CocolHeapHeader ι) :=
  (heapCall s a).map Prod.snd

end

end Cocool.Heap
