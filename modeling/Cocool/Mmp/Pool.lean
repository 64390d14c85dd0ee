import Mathlib.Data.List.Range
import Mathlib.Logic.Function.Basic
import Mathlib.Data.Int.Notation

/-!
# The memory pool

The pool of `co_mmp.c`: an array `proot` of object headers whose first
`imemFree` entries name the free slots, the slot bytes in `pmemData`, and
the four headers copied ahead of time into `buff`.  Arrays are functions
together with the number of entries that were allocated, and an access
outside of them is a fault.
-/

namespace Cocool.Mmp

abbrev Addr := ℕ

def mmPoolBuff : ℕ := 4

def mmPoolExpandNum : ℕ := 16

/-- `MM_POOL_ROUNDUP(a,b)`.  For a power of two `b` the mask `~(b - 1)`
clears the remainder modulo `b`. -/
def mmPoolRoundup (a b : ℕ) : ℕ := (a + b - 1) - (a + b - 1) % b

/-- `struct cocol_type_header`.  `pcocolType` and `typeData` are left out:
no pool function looks at them. -/
structure CocolTypeHeader where
  pcocolBaseType : Addr
  privData : Addr
  irefcount : UInt32
  iheapIdx : ℕ
  deriving DecidableEq

/-- What a `struct cocol_type_header *` points to: an entry of `buff[]`, an
entry of the header array while that array was at `base`, or a header the
client owns. -/
inductive HeaderPtr
  | buff (k : ℕ)
  | proot (base : Addr) (i : ℕ)
  | client (c : ℕ)
  deriving DecidableEq

/-- Why a call has no defined outcome: an array index out of range, a
pointer that is NULL, dangling or outside of its block, or a client that
breaks its side of the contract. -/
inductive Fault
  | index
  | pointer
  | client
  deriving DecidableEq

inductive HeapCall
  | malloc (a : Addr)
  | realloc (old new : Addr)
  | free (a : Addr)
  deriving DecidableEq

/-- What the C library answers during one call: the address of a new
block, or `none` for NULL, and the bytes that a grown block holds past its
old end. -/
structure Env where
  mallocRoot : Option Addr
  mallocData : Option Addr
  reallocRoot : Option Addr
  rootTail : ℕ → CocolTypeHeader
  reallocData : Option Addr
  dataTail : ℕ → UInt8

/-- `struct mm_pool_header` with the two blocks it points to, the headers
the client made with `cocol_X_dup`, and the allocator calls so far. -/
structure Pool where
  self : Addr
  pdataType : Addr
  proot : Addr
  headers : ℕ → CocolTypeHeader
  headerCap : ℕ
  pmemData : Addr
  data : ℕ → UInt8
  dataCap : ℕ
  imemSize : ℕ
  imemFree : ℕ
  imemUsed : ℤ
  imemLen : ℕ
  binitialized : Bool
  buffMask : ℕ
  buff : ℕ → CocolTypeHeader
  client : ℕ → CocolTypeHeader
  clientNum : ℕ
  heapCalls : List HeapCall

namespace Pool

def logged (s : Pool) (c : HeapCall) : Pool := { s with heapCalls := s.heapCalls ++ [c] }

def deref (s : Pool) : HeaderPtr → Option CocolTypeHeader
  | .buff k => if k < mmPoolBuff then some (s.buff k) else none
  | .proot base i => if base = s.proot ∧ i < s.headerCap then some (s.headers i) else none
  | .client c => if c < s.clientNum then some (s.client c) else none

def writeIdx (s : Pool) (p : HeaderPtr) (x : ℕ) : Pool :=
  match p with
  | .buff k => { s with buff := Function.update s.buff k { s.buff k with iheapIdx := x } }
  | .proot _ i =>
      { s with headers := Function.update s.headers i { s.headers i with iheapIdx := x } }
  | .client c => { s with client := Function.update s.client c { s.client c with iheapIdx := x } }

def readData (s : Pool) (off n : ℕ) : List UInt8 :=
  (List.range n).map fun j ↦ s.data (off + j)

def writeData (s : Pool) (off : ℕ) (v : List UInt8) : Pool :=
  { s with data := fun x ↦
      if off ≤ x ∧ x < off + v.length then v.getD (x - off) 0 else s.data x }

/-- The bytes at `&pmemData[imemLen * k]`. -/
def slotBytes (s : Pool) (k : ℕ) : List UInt8 := s.readData (s.imemLen * k) s.imemLen

end Pool

/-! ## Free and expand -/

/-- Swap the slot index of `proot[heapIdx]` with that of `*pelem`.  The two
may be the same header, so the stores are made one after the other. -/
def mmPoolShitDown (s : Pool) (heapIdx : ℕ) (pelem : HeaderPtr) : Except Fault Pool :=
  if heapIdx < s.headerCap then
    match s.deref pelem with
    | none => .error .pointer
    | some e =>
        let idataheapIdx := (s.headers heapIdx).iheapIdx
        .ok ((s.writeIdx (.proot s.proot heapIdx) e.iheapIdx).writeIdx pelem idataheapIdx)
  else .error .index

def mmPoolFreeElem (s : Pool) (pelem : HeaderPtr) : Except Fault Pool :=
  -- neither `irefcount` nor `imemSize` is looked at
  (mmPoolShitDown { s with imemFree := s.imemFree + 1 } s.imemFree pelem).map
    fun t ↦ { t with imemUsed := t.imemUsed - 1 }

/-- One turn of the loop in `mm_pool_expand`: name the header past the end
after its position and free it. -/
def expandElem (s : Pool) : Except Fault Pool :=
  if s.imemSize < s.headerCap then
    let t := s.writeIdx (.proot s.proot s.imemSize) s.imemSize
    mmPoolFreeElem { t with imemSize := s.imemSize + 1 } (.proot s.proot s.imemSize)
  else .error .index

def expandLoop : ℕ → Pool → Except Fault Pool
  | 0, s => .ok s
  | n + 1, s => (expandLoop n s).bind expandElem

/-- `proot = cocol_realloc(proot, …)`: the old entries move along, the
bytes after them are whatever the new block holds. -/
def Pool.reallocRoot (s : Pool) (env : Env) (a : Addr) : Pool :=
  { s.logged (.realloc s.proot a) with
    proot := a
    headers := fun i ↦ if i < s.headerCap then s.headers i else env.rootTail i
    headerCap := s.imemSize + mmPoolExpandNum }

def Pool.reallocData (s : Pool) (env : Env) (a : Addr) : Pool :=
  { s.logged (.realloc s.pmemData a) with
    pmemData := a
    data := fun x ↦ if x < s.dataCap then s.data x else env.dataTail x
    dataCap := (s.imemSize + mmPoolExpandNum) * s.imemLen }

/-- `false` stands for the return value `-1`. -/
def mmPoolExpand (s : Pool) (env : Env) : Except Fault (Bool × Pool) :=
  match env.reallocRoot with
  | none => .ok (false, s)
  | some a =>
      let s := s.reallocRoot env a
      match env.reallocData with
      | none => .ok (false, s)
      | some b =>
          let s := s.reallocData env b
          (expandLoop mmPoolExpandNum { s with imemUsed := s.imemUsed + mmPoolExpandNum }).map
            fun t ↦ (true, t)

/-! ## Taking slots out of the free region -/

/-- One turn of the loop in `mm_pool_get_free`: `buff[i]` becomes a copy of
`proot[--imemFree]` with its data pointer computed afresh. -/
def refillElem (i : ℕ) (s : Pool) : Except Fault Pool :=
  if 0 < s.imemFree ∧ s.imemFree - 1 < s.headerCap ∧ i < mmPoolBuff then
    let e := s.headers (s.imemFree - 1)
    .ok { s with
      imemFree := s.imemFree - 1
      buff := Function.update s.buff i
        { e with privData := s.pmemData + s.imemLen * e.iheapIdx }
      imemUsed := s.imemUsed + 1 }
  else .error .index

def refillLoop : ℕ → Pool → Except Fault Pool
  | 0, s => .ok s
  | n + 1, s => (refillLoop n s).bind (refillElem n)

def mmPoolGetFree (s : Pool) (env : Env) : Except Fault (Bool × Pool) :=
  if s.imemFree < mmPoolBuff then
    match mmPoolExpand s env with
    | .error e => .error e
    | .ok (false, t) => .ok (false, t)
    | .ok (true, t) => (refillLoop mmPoolBuff t).map fun u ↦ (true, u)
  else (refillLoop mmPoolBuff s).map fun u ↦ (true, u)

def mmPoolInitFreeElem (s : Pool) (env : Env) : Except Fault Pool :=
  if s.buffMask = mmPoolBuff then
    match mmPoolGetFree s env with
    | .error e => .error e
    | .ok (false, t) => .ok t
    | .ok (true, t) => .ok { t with buffMask := 0 }
  else .ok s

def mmPoolGetFreeElem (s : Pool) (env : Env) : Except Fault (Option HeaderPtr × Pool) :=
  if s.buffMask = mmPoolBuff then
    match mmPoolGetFree s env with
    | .error e => .error e
    | .ok (false, t) => .ok (none, t)
    | .ok (true, t) => .ok (some (.buff 0), { t with buffMask := 1 })
  else if s.buffMask < mmPoolBuff then
    .ok (some (.buff s.buffMask), { s with buffMask := s.buffMask + 1 })
  else .error .index

/-! ## Lookup -/

/-- The scan of `mm_pool_check_elem` over the `n` positions from `i` on. -/
def checkLoop (s : Pool) (v : List UInt8) : ℕ → ℕ → Except Fault (Option ℕ)
  | 0, _ => .ok none
  | n + 1, i =>
      if i < s.headerCap then
        let k := (s.headers i).iheapIdx
        -- `memcmp` on every used slot, those waiting in `buff` included
        if s.imemLen * k + s.imemLen ≤ s.dataCap then
          if s.slotBytes k = v then .ok (some i) else checkLoop s v n (i + 1)
        else .error .pointer
      else .error .index

def Pool.bumpRef (s : Pool) (i : ℕ) : Pool :=
  { s with
    headers := Function.update s.headers i
      { s.headers i with irefcount := (s.headers i).irefcount + 1 } }

def mmPoolCheckElem (s : Pool) (v : List UInt8) : Except Fault (Option HeaderPtr × Pool) :=
  match checkLoop s v (s.imemSize - s.imemFree) s.imemFree with
  | .error e => .error e
  | .ok none => .ok (none, s)
  | .ok (some i) => .ok (some (.proot s.proot i), s.bumpRef i)

def mmPoolGetElem (s : Pool) (v : List UInt8) (env : Env) :
    Except Fault (Option HeaderPtr × Pool) :=
  if s.binitialized then
    match mmPoolCheckElem s v with
    | .error e => .error e
    | .ok (some p, t) => .ok (some p, t)
    | .ok (none, t) => mmPoolGetFreeElem t env
  else .ok (none, s)

/-! ## Initialisation and the entry points for the three types -/

/-- `true` stands for a non-NULL result.  When the data block cannot be
had, the source frees `pheader` and not the header block it just got. -/
def mmPoolInit (s : Pool) (env : Env) : Except Fault (Bool × Pool) :=
  if s.binitialized then .ok (false, s)
  else
    let s := { s with
      imemLen := mmPoolRoundup s.imemLen 4
      imemSize := mmPoolRoundup s.imemSize 4 }
    match env.mallocRoot with
    | none => .ok (false, s)
    | some a =>
        let s := s.logged (.malloc a)
        match env.mallocData with
        | none => .ok (false, s.logged (.free s.self))
        | some b =>
            let s := s.logged (.malloc b)
            let s := { s with
              pmemData := b
              data := fun _ ↦ 0
              dataCap := s.imemSize * s.imemLen
              proot := a
              headers := fun i ↦ ⟨s.pdataType, b + s.imemLen * i, 0, i⟩
              headerCap := s.imemSize
              imemFree := s.imemSize
              imemUsed := 0
              buffMask := mmPoolBuff }
            (mmPoolInitFreeElem s env).map fun t ↦ (true, { t with binitialized := true })

def ensureInit (s : Pool) (env : Env) : Except Fault Pool :=
  if s.binitialized then .ok s else (mmPoolInit s env).map Prod.snd

/-- `COCOL_FUNC_MALLOC`; `v` is the `imemLen` bytes at `ptmp->privData`. -/
def cocolFuncMalloc (s : Pool) (v : List UInt8) (env : Env) :
    Except Fault (Option HeaderPtr × Pool) :=
  (ensureInit s env).bind fun t ↦ mmPoolGetElem t v env

def cocolFuncFree (s : Pool) (ptmp : HeaderPtr) : Except Fault Pool := mmPoolFreeElem s ptmp

def cocolFuncDup (s : Pool) (psrc : HeaderPtr) : Except Fault Pool :=
  match s.deref psrc with
  | none => .error .pointer
  | some e =>
      -- the copy is not counted in `irefcount`
      .ok { s with
        client := Function.update s.client s.clientNum e
        clientNum := s.clientNum + 1 }

def Pool.storeAt (s : Pool) (p : Addr) (v : List UInt8) : Except Fault Pool :=
  if s.pmemData ≤ p ∧ p + s.imemLen ≤ s.pmemData + s.dataCap then
    .ok (s.writeData (p - s.pmemData) v)
  else .error .pointer

def cocolFuncInit (s : Pool) (ptmp : HeaderPtr) (v : List UInt8) (env : Env) :
    Except Fault Pool :=
  (ensureInit s env).bind fun t ↦
    match t.deref ptmp with
    | none => .error .pointer
    | some e => t.storeAt e.privData v

/-! ## The declared pools -/

structure PoolDecl where
  self : Addr
  pdataType : Addr
  imemSize : ℕ
  imemLen : ℕ
  size_pos : 0 < imemSize
  len_pos : 0 < imemLen

/-- `g_stringHeader`, with its own address and that of `g_cocol_string`. -/
def gStringHeader (self gCocolString : Addr) : PoolDecl :=
  ⟨self, gCocolString, 128, 32, by decide, by decide⟩

def gIntHeader (self gCocolInt : Addr) : PoolDecl :=
  ⟨self, gCocolInt, 1024, 4, by decide, by decide⟩

def gCharHeader (self gCocolChar : Addr) : PoolDecl :=
  ⟨self, gCocolChar, 128, 1, by decide, by decide⟩

/-- The header as the loader leaves it; everything not named is zero. -/
def PoolDecl.pool (d : PoolDecl) : Pool where
  self := d.self
  pdataType := d.pdataType
  proot := 0
  headers := fun _ ↦ ⟨0, 0, 0, 0⟩
  headerCap := 0
  pmemData := 0
  data := fun _ ↦ 0
  dataCap := 0
  imemSize := d.imemSize
  imemFree := 0
  imemUsed := 0
  imemLen := d.imemLen
  binitialized := false
  buffMask := 0
  buff := fun _ ↦ ⟨0, 0, 0, 0⟩
  client := fun _ ↦ ⟨0, 0, 0, 0⟩
  clientNum := 0
  heapCalls := []

end Cocool.Mmp
