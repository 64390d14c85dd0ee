import Cocool.Lib.Ints
import Mathlib.Logic.Function.Basic

/-!
# The hash table of co_hash.c

The elements in memory with their links, the buckets, and the functions that
find, insert, remove and clear.  An element that is looked at must not have
been freed, and an `assert` that fails is a fault like any other.
-/

namespace Cocool.HashTable

open Lib

/-- The bytes of a string: what comes before the first NUL. -/
def cstring (z : List UInt8) : List UInt8 := z.takeWhile (· ≠ 0)

/-- What the file uses of the rest of SQLite.  `sqlite3StrICmp` compares two
strings after `sqlite3UpperToLower`. -/
structure Sqlite where
  upperToLower : UInt8 → UInt8
  strICmp : List UInt8 → List UInt8 → ℤ
  mallocSoftLimit : ℕ
  strICmp_eq_zero : ∀ a b, strICmp a b = 0 ↔
    (cstring a).map upperToLower = (cstring b).map upperToLower

/-- What the allocator answers during a call: an address for a new element,
not one of those in use, and the actual size of a block of the given size. -/
structure Malloc (ι : Type) where
  elem : Option { place : List ι → ι // ∀ used, place used ∉ used }
  size : ℕ → Option ℕ
  size_spec : ∀ n k, size n = some k → 0 < n ∧ n ≤ k ∧ k < 2 ^ 31

/-- `struct _ht`. -/
structure Ht (ι : Type) where
  count : ℤ
  chain : Option ι

structure HashElem (ι δ : Type) where
  next : Option ι
  prev : Option ι
  data : Option δ
  pKey : List UInt8

/-- A `Hash` with the elements in memory and the addresses of those that are
allocated.  The bucket array is in `ht` alone: where it is set to `none` or to
another array, the old one goes to `sqlite3_free`. -/
structure Hash (ι δ : Type) where
  htsize : ℕ
  count : ℕ
  first : Option ι
  ht : Option (List (Ht ι))
  elem : ι → HashElem ι δ
  live : List ι

/-- `freed` is a look at an element that is not allocated, `bounds` one at a
bucket outside of the block, and `fuel` a loop that has not ended. -/
inductive Fault
  | freed
  | bounds
  | division
  | overflow
  | assertion
  | fuel
  deriving DecidableEq

variable {ι δ : Type} [DecidableEq ι]

namespace Hash

def withNext (s : Hash ι δ) (x : ι) (q : Option ι) : Hash ι δ :=
  { s with elem := Function.update s.elem x { s.elem x with next := q } }

def withPrev (s : Hash ι δ) (x : ι) (q : Option ι) : Hash ι δ :=
  { s with elem := Function.update s.elem x { s.elem x with prev := q } }

/-- The key and the data of an element. -/
def withEntry (s : Hash ι δ) (x : ι) (pKey : List UInt8) (data : δ) : Hash ι δ :=
  { s with elem := Function.update s.elem x { s.elem x with pKey := pKey, data := some data } }

omit [DecidableEq ι] in
def withFirst (s : Hash ι δ) (q : Option ι) : Hash ι δ := { s with first := q }

def read (s : Hash ι δ) (x : ι) : Except Fault (HashElem ι δ) :=
  if x ∈ s.live then .ok (s.elem x) else .error .freed

def setNext (s : Hash ι δ) (x : ι) (q : Option ι) : Except Fault (Hash ι δ) :=
  if x ∈ s.live then .ok (s.withNext x q) else .error .freed

def setPrev (s : Hash ι δ) (x : ι) (q : Option ι) : Except Fault (Hash ι δ) :=
  if x ∈ s.live then .ok (s.withPrev x q) else .error .freed

/-- `if (p) p->next = q; else pH->first = q`. -/
def linkFrom (s : Hash ι δ) (p q : Option ι) : Except Fault (Hash ι δ) :=
  match p with
  | none => .ok (s.withFirst q)
  | some x => s.setNext x q

/-- `if (q) q->prev = p`. -/
def linkBack (s : Hash ι δ) (q p : Option ι) : Except Fault (Hash ι δ) :=
  match q with
  | none => .ok s
  | some x => s.setPrev x p

/-- `sqlite3_free (elem)`. -/
def free (s : Hash ι δ) (x : ι) : Except Fault (Hash ι δ) :=
  if x ∈ s.live then .ok { s with live := s.live.erase x } else .error .freed

omit [DecidableEq ι] in
/-- `pH->ht[h]`. -/
def bucket (s : Hash ι δ) (h : ℕ) : Except Fault (Ht ι) :=
  match s.ht.bind (·[h]?) with
  | none => .error .bounds
  | some b => .ok b

omit [DecidableEq ι] in
def setBucket (s : Hash ι δ) (h : ℕ) (b : Ht ι) : Hash ι δ :=
  { s with ht := s.ht.map (·.set h b) }

end Hash

/-- The loop of `strHash`. -/
def strHashFrom (sq : Sqlite) : UInt32 → List UInt8 → UInt32
  | h, [] => h
  | h, c :: z =>
      if c = 0 then h else strHashFrom sq ((h + (sq.upperToLower c).toUInt32) * 0x9e3779b1) z

def strHash (sq : Sqlite) (z : List UInt8) : UInt32 := strHashFrom sq 0 z

/-- `strHash(z) % n`. -/
def hashMod (sq : Sqlite) (z : List UInt8) (n : ℕ) : Except Fault ℕ :=
  if n = 0 then .error .division else .ok ((strHash sq z).toNat % n)

omit [DecidableEq ι] in
def sqlite3HashInit (s : Hash ι δ) : Hash ι δ :=
  { s with first := none, count := 0, htsize := 0, ht := none }

/-- The `while` loop of `sqlite3HashClear`. -/
def clearLoop : ℕ → Hash ι δ → Option ι → Except Fault (Hash ι δ)
  | 0, _, _ => .error .fuel
  | _ + 1, s, none => .ok s
  | fuel + 1, s, some elem => do
      let next := (← s.read elem).next
      let s ← s.free elem
      clearLoop fuel s next

def sqlite3HashClear (s : Hash ι δ) : Except Fault (Hash ι δ) := do
  let elem := s.first
  let s := { s with first := none, ht := none, htsize := 0 }
  let s ← clearLoop (s.live.length + 1) s elem
  return { s with count := 0 }

omit [DecidableEq ι] in
/-- The first part of `insertElement`: the bucket takes `pNew` in, and the
element that stood first in it is `pHead`. -/
def enterBucket (s : Hash ι δ) (pEntry : Option ℕ) (pNew : ι) :
    Except Fault (Hash ι δ × Option ι) :=
  match pEntry with
  | none => .ok (s, none)
  | some h => do
      let b ← s.bucket h
      if InSigned 32 (b.count + 1) then
        return (s.setBucket h ⟨b.count + 1, some pNew⟩, if b.count ≠ 0 then b.chain else none)
      else .error .overflow

/-- `pNew` goes before `pHead`, or to the front of the list. -/
def linkElement (s : Hash ι δ) (pHead : Option ι) (pNew : ι) : Except Fault (Hash ι δ) :=
  match pHead with
  | some pHead => do
      let s ← s.setNext pNew (some pHead)
      let s ← s.setPrev pNew (← s.read pHead).prev
      let s ← s.linkFrom (← s.read pHead).prev (some pNew)
      s.setPrev pHead (some pNew)
  | none => do
      let s ← s.setNext pNew s.first
      let s ← s.linkBack s.first (some pNew)
      let s ← s.setPrev pNew none
      return s.withFirst (some pNew)

/-- `pEntry` is the index of the bucket, or nothing for NULL. -/
def insertElement (s : Hash ι δ) (pEntry : Option ℕ) (pNew : ι) : Except Fault (Hash ι δ) := do
  let (s, pHead) ← enterBucket s pEntry pNew
  linkElement s pHead pNew

/-- `sizeof(struct _ht)`. -/
def sizeofHt : ℕ := 16

/-- The `for` loop of `rehash`. -/
def rehashLoop (sq : Sqlite) (newSize : ℕ) : ℕ → Hash ι δ → Option ι → Except Fault (Hash ι δ)
  | 0, _, _ => .error .fuel
  | _ + 1, s, none => .ok s
  | fuel + 1, s, some elem => do
      let e ← s.read elem
      let h ← hashMod sq e.pKey newSize
      let s ← insertElement s (some h) elem
      rehashLoop sq newSize fuel s e.next

/-- The size after `#if SQLITE_MALLOC_SOFT_LIMIT>0`, or nothing for the
`return 0` there. -/
def softLimited (sq : Sqlite) (htsize newSize : ℕ) : Option ℕ :=
  if 0 < sq.mallocSoftLimit then
    let newSize :=
      if newSize * sizeofHt > sq.mallocSoftLimit then sq.mallocSoftLimit / sizeofHt else newSize
    if newSize = htsize then none else some newSize
  else some newSize

def rehash (sq : Sqlite) (mem : Malloc ι) (s : Hash ι δ) (newSize : ℕ) :
    Except Fault (Hash ι δ × Bool) :=
  match (softLimited sq s.htsize newSize).bind fun newSize ↦ mem.size (newSize * sizeofHt) with
  | none => .ok (s, false)
  | some size => do
      let newSize := size / sizeofHt % 2 ^ 32
      let elem := s.first
      let s := { s with ht := some (List.replicate newSize ⟨0, none⟩), htsize := newSize,
                        first := none }
      let s ← rehashLoop sq newSize (s.live.length + 1) s elem
      return (s, true)

/-- The `while` loop of `findElementWithHash`, where no element is the null
element. -/
def findLoop (sq : Sqlite) (s : Hash ι δ) (pKey : List UInt8) :
    ℕ → Option ι → Except Fault (Option ι)
  | 0, _ => .ok none
  | _ + 1, none => .error .assertion
  | count + 1, some elem => do
      let e ← s.read elem
      if sq.strICmp e.pKey pKey = 0 then return some elem
      findLoop sq s pKey count e.next

/-- `while (count--)` counts a negative number down until it overflows. -/
def countDown (count : ℤ) : Except Fault ℕ :=
  if count < 0 then .error .overflow else .ok count.toNat

def findElementWithHash (sq : Sqlite) (s : Hash ι δ) (pKey : List UInt8) :
    Except Fault (Option ι × ℕ) :=
  match s.ht with
  | some _ => do
      let h ← hashMod sq pKey s.htsize
      let pEntry ← s.bucket h
      let elem ← findLoop sq s pKey (← countDown pEntry.count) pEntry.chain
      return (elem, h)
  | none => do
      let elem ← findLoop sq s pKey (← countDown (wrapSigned 32 s.count)) s.first
      return (elem, 0)

/-- `if (pH->ht)` in `removeElementGivenHash`. -/
def leaveBucket (s : Hash ι δ) (elem : ι) (h : ℕ) : Except Fault (Hash ι δ) :=
  match s.ht with
  | none => .ok s
  | some _ => do
      let b ← s.bucket h
      let chain ← if b.chain = some elem then (·.next) <$> s.read elem else .ok b.chain
      if b.count - 1 < 0 then .error .assertion
      else return s.setBucket h ⟨b.count - 1, chain⟩

/-- The links around `elem` now lead past it. -/
def unlinkElement (s : Hash ι δ) (elem : ι) : Except Fault (Hash ι δ) := do
  let s ← s.linkFrom (← s.read elem).prev (← s.read elem).next
  s.linkBack (← s.read elem).next (← s.read elem).prev

def removeElementGivenHash (s : Hash ι δ) (elem : ι) (h : ℕ) : Except Fault (Hash ι δ) := do
  let s ← unlinkElement s elem
  let s ← leaveBucket s elem h
  let s ← s.free elem
  let s := { s with count := wrapUnsigned 32 (s.count - 1) }
  if s.count = 0 then
    if s.first = none then sqlite3HashClear s else .error .assertion
  else return s

/-- The data of what `findElementWithHash` returns. -/
def elemData (s : Hash ι δ) : Option ι → Except Fault (Option δ)
  | none => .ok none
  | some elem => (·.data) <$> s.read elem

def sqlite3HashFind (sq : Sqlite) (s : Hash ι δ) (pKey : List UInt8) : Except Fault (Option δ) := do
  let (elem, _) ← findElementWithHash sq s pKey
  elemData s elem

/-- The resizing in `sqlite3HashInsert`, with the hash after it. -/
def growTable (sq : Sqlite) (mem : Malloc ι) (s : Hash ι δ) (pKey : List UInt8) (h : ℕ) :
    Except Fault (Hash ι δ × ℕ) :=
  if s.count ≥ 10 ∧ s.count > wrapUnsigned 32 (2 * s.htsize) then do
    let (s, done) ← rehash sq mem s (wrapUnsigned 32 (s.count * 2))
    if done then
      if s.htsize > 0 then return (s, ← hashMod sq pKey s.htsize) else .error .assertion
    else return (s, h)
  else .ok (s, h)

/-- The second part of `sqlite3HashInsert`: there is no element with this
key. -/
def addElement (sq : Sqlite) (mem : Malloc ι) (s : Hash ι δ) (pKey : List UInt8) (h : ℕ)
    (data : Option δ) : Except Fault (Hash ι δ × Option δ) :=
  match data, mem.elem with
  | none, _ => .ok (s, none)
  | some data, none => .ok (s, some data)
  | some data, some place => do
      let newElem := place.1 s.live
      let s := { s with live := newElem :: s.live, count := wrapUnsigned 32 (s.count + 1) }
      let s := s.withEntry newElem pKey data
      let (s, h) ← growTable sq mem s pKey h
      let s ← insertElement s (s.ht.map fun _ ↦ h) newElem
      return (s, none)

/-- The first part of `sqlite3HashInsert`: `elem` has this key and data. -/
def replaceElement (s : Hash ι δ) (elem : ι) (pKey : List UInt8) (h : ℕ) (data : Option δ) :
    Except Fault (Hash ι δ) :=
  match data with
  | none => removeElementGivenHash s elem h
  | some data => do
      let _ ← s.read elem
      return s.withEntry elem pKey data

def sqlite3HashInsert (sq : Sqlite) (mem : Malloc ι) (s : Hash ι δ) (pKey : List UInt8)
    (data : Option δ) : Except Fault (Hash ι δ × Option δ) := do
  let (elem, h) ← findElementWithHash sq s pKey
  match elem, ← elemData s elem with
  | some elem, some oldData => return (← replaceElement s elem pKey h data, some oldData)
  | _, _ => addElement sq mem s pKey h data

end Cocool.HashTable
