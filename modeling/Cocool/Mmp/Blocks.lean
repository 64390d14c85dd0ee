import Cocool.Mmp.Session

/-!
# The blocks behind a pool

Every allocator call of the pool is logged, and the log is replayed against
the rules of the allocator: only a live block may be resized or freed.  The
live blocks must be the two that the pool header points to.
-/

namespace Cocool.Mmp

open Lib

/-- The live blocks after one more call, or `none` when the call is not
allowed. -/
def HeapCall.apply (live : List Addr) : HeapCall → Option (List Addr)
  | .malloc a => some (a :: live)
  | .realloc old new => if old ∈ live then some (new :: live.erase old) else none
  | .free a => if a ∈ live then some (live.erase a) else none

def liveBlocks (calls : List HeapCall) : Option (List Addr) := calls.foldlM HeapCall.apply []

/-- The blocks that the pool header points to. -/
def Pool.blocks (s : Pool) : List Addr := if s.binitialized then [s.proot, s.pmemData] else []

/-- Every block obtained is still referenced or was freed once, and neither
a foreign block nor the static pool header was ever freed. -/
def Balanced (s : Pool) : Prop :=
  (∃ live, liveBlocks s.heapCalls = some live ∧ live.Perm s.blocks) ∧ .free s.self ∉ s.heapCalls

/-- The states a pool can be in before a call. -/
structure Ready (s : Pool) : Prop where
  shape : s.binitialized = true → s.Shape
  uninit : s.binitialized = false → 0 < s.imemSize ∧ 0 < s.imemLen

/-- What a failed call must leave as it was. -/
structure Intact (s t : Pool) : Prop where
  slots : ∀ i < s.imemSize, t.headers i = s.headers i
  data : t.data = s.data
  pmemData : t.pmemData = s.pmemData
  imemSize : t.imemSize = s.imemSize
  imemFree : t.imemFree = s.imemFree
  imemUsed : t.imemUsed = s.imemUsed
  imemLen : t.imemLen = s.imemLen
  buffMask : t.buffMask = s.buffMask
  buff : t.buff = s.buff
  binitialized : t.binitialized = s.binitialized

/-- With memory for both blocks the pool can be initialised. -/
def Retryable (s : Pool) : Prop :=
  ∀ env a b, env.mallocRoot = some a → env.mallocData = some b →
    ∃ t, mmPoolInit s env = .ok (true, t) ∧ t.Shape

abbrev MallocOp := List UInt8 × Env

def mallocStep (s : Pool) (op : MallocOp) : Except Fault Pool :=
  (cocolFuncMalloc s op.1 op.2).map Prod.snd

/-- The law of one failing call. -/
def FailsClean (s : Pool) (op : MallocOp) : Prop :=
  ∀ r t, cocolFuncMalloc s op.1 op.2 = .ok (r, t) →
    (s.binitialized = false → op.2.mallocRoot = none ∨ op.2.mallocData = none →
      r = none ∧ t.binitialized = false ∧ Retryable t) ∧
    (s.binitialized = true → r = none → Intact s t)

/-- A lazy `mm_pool_init` does not get its header block without getting its
data block. -/
def NoHalfInit (s : Pool) (op : MallocOp) : Prop :=
  s.binitialized = false → op.2.mallocRoot ≠ none → op.2.mallocData ≠ none

instance (s : Pool) : DecidablePred (NoHalfInit s) :=
  fun _ ↦ inferInstanceAs (Decidable (_ → _ → _))

/-! ## Replaying the log -/

theorem liveBlocks_concat (calls : List HeapCall) (c : HeapCall) :
    liveBlocks (calls ++ [c]) = (liveBlocks calls).bind fun live ↦ c.apply live := by
  simp [liveBlocks, List.foldlM_append]

section Replay

variable {calls : List HeapCall} {live : List Addr}

theorem liveBlocks_malloc (h : liveBlocks calls = some live) (a : Addr) :
    liveBlocks (calls ++ [.malloc a]) = some (a :: live) := by
  simp [liveBlocks_concat, h, HeapCall.apply]

/-- A live block keeps its place among the live ones under its new address. -/
theorem liveBlocks_realloc (h : liveBlocks calls = some live) {old : Addr} {rest : List Addr}
    (hold : live.Perm (old :: rest)) (new : Addr) :
    ∃ live', liveBlocks (calls ++ [.realloc old new]) = some live' ∧
      live'.Perm (new :: rest) := by
  have hmem : old ∈ live := hold.mem_iff.mpr List.mem_cons_self
  refine ⟨new :: live.erase old, ?_, ?_⟩
  · simp [liveBlocks_concat, h, HeapCall.apply, hmem]
  · have herase := hold.erase old
    rw [List.erase_cons_head] at herase
    exact herase.cons new

end Replay

section Balanced

variable {s t : Pool} {v : List UInt8} {env : Env} {r : Option HeaderPtr} {a b : Addr}

theorem Balanced.transport (h : Balanced s) (hcalls : t.heapCalls = s.heapCalls)
    (hblocks : t.blocks = s.blocks) (hself : t.self = s.self) : Balanced t := by
  unfold Balanced
  rw [hcalls, hblocks, hself]
  exact h

theorem Balanced.reallocRoot (h : Balanced s) (hs : s.binitialized = true) (env : Env)
    (a : Addr) : Balanced (s.reallocRoot env a) := by
  obtain ⟨⟨live, hlive, hperm⟩, hself⟩ := h
  simp only [Pool.blocks, hs, if_true] at hperm
  refine ⟨?_, ?_⟩
  · obtain ⟨live', hlive', hperm'⟩ := liveBlocks_realloc hlive hperm a
    refine ⟨live', hlive', ?_⟩
    simpa [Pool.blocks, Pool.reallocRoot, Pool.logged, hs] using hperm'
  · simpa [Pool.reallocRoot, Pool.logged] using hself

theorem Balanced.reallocData (h : Balanced s) (hs : s.binitialized = true) (env : Env)
    (b : Addr) : Balanced (s.reallocData env b) := by
  obtain ⟨⟨live, hlive, hperm⟩, hself⟩ := h
  simp only [Pool.blocks, hs, if_true] at hperm
  refine ⟨?_, ?_⟩
  · have hswap : live.Perm [s.pmemData, s.proot] := hperm.trans (List.Perm.swap _ _ _)
    obtain ⟨live', hlive', hperm'⟩ := liveBlocks_realloc hlive hswap b
    refine ⟨live', hlive', hperm'.trans ?_⟩
    simpa [Pool.blocks, Pool.reallocData, Pool.logged, hs] using List.Perm.swap _ _ _
  · simpa [Pool.reallocData, Pool.logged] using hself

theorem MallocCase.balanced (hc : MallocCase s v env r t) (hs : s.Shape) (h : Balanced s) :
    Balanced t := by
  cases hc with
  | hit i _ _ => exact h.transport rfl rfl rfl
  | take _ _ => exact h.transport rfl rfl rfl
  | refill _ _ _ _ => exact h.transport rfl rfl rfl
  | grow _ _ _ a b _ _ =>
      have hroot := h.reallocRoot hs.init env a
      have hdata := hroot.reallocData hs.init env b
      exact hdata.transport rfl rfl rfl
  | noRoot _ _ _ _ => exact h
  | noData _ _ _ a _ _ => exact h.reallocRoot hs.init env a

theorem MallocCase.intact (hc : MallocCase s v env none t) (hs : s.Shape) : Intact s t := by
  cases hc with
  | noRoot _ _ _ _ => exact ⟨fun _ _ ↦ rfl, rfl, rfl, rfl, rfl, rfl, rfl, rfl, rfl, rfl⟩
  | noData _ _ _ a _ _ =>
      refine ⟨fun i hi ↦ ?_, rfl, rfl, rfl, rfl, rfl, rfl, rfl, rfl, rfl⟩
      have hin : i < s.headerCap := Nat.lt_of_lt_of_le hi hs.cap
      simp [Pool.reallocRoot, Pool.logged, hin]

end Balanced

/-! ## Lazy initialisation -/

namespace Pool

/-- The sizes as `mm_pool_init` rounds them, before it asks for memory. -/
def rounded (s : Pool) : Pool :=
  { s with imemLen := mmPoolRoundup s.imemLen 4, imemSize := mmPoolRoundup s.imemSize 4 }

/-- An uninitialised pool whose two blocks were obtained at `a` and `b`. -/
def inited (s : Pool) (a b : Addr) : Pool :=
  { Pool.refill
      { (s.rounded.logged (.malloc a)).logged (.malloc b) with
        pmemData := b
        data := fun _ ↦ 0
        dataCap := s.rounded.imemSize * s.rounded.imemLen
        proot := a
        headers := fun i ↦ ⟨s.pdataType, b + s.rounded.imemLen * i, 0, i⟩
        headerCap := s.rounded.imemSize
        imemFree := s.rounded.imemSize
        imemUsed := 0
        buffMask := 0 } 4 with
    binitialized := true }

end Pool

section Init

variable {s t : Pool} {env : Env} {a b : Addr}

theorem mmPoolInit_noRoot (hs : s.binitialized = false) (ha : env.mallocRoot = none) :
    mmPoolInit s env = .ok (false, s.rounded) := by
  simp [mmPoolInit, hs, ha, Pool.rounded]

theorem mmPoolInit_noData (hs : s.binitialized = false) (ha : env.mallocRoot = some a)
    (hb : env.mallocData = none) :
    mmPoolInit s env = .ok (false, (s.rounded.logged (.malloc a)).logged (.free s.self)) := by
  simp [mmPoolInit, hs, ha, hb, Pool.rounded, Pool.logged]

theorem mmPoolInit_both (hs : s.binitialized = false) (hsize : 0 < s.imemSize)
    (ha : env.mallocRoot = some a) (hb : env.mallocData = some b) :
    mmPoolInit s env = .ok (true, s.inited a b) := by
  have hfour := le_mmPoolRoundup hsize
  have hnot : ¬mmPoolRoundup s.imemSize 4 < 4 := Nat.not_lt.mpr hfour
  simp only [mmPoolInit, hs, ha, hb, Bool.false_eq_true, ↓reduceIte, mmPoolInitFreeElem,
    mmPoolGetFree, Pool.logged, mmPoolBuff, hnot]
  rw [refillLoop_eq le_rfl hfour le_rfl]
  rfl

theorem inited_shape (hsize : 0 < s.imemSize) (hlen : 0 < s.imemLen) (a b : Addr) :
    (s.inited a b).Shape where
  init := rfl
  size := le_mmPoolRoundup hsize
  cap := le_rfl
  dataCap := rfl
  mask := Nat.zero_le 4
  len_pos := lt_of_lt_of_le (by decide) (le_mmPoolRoundup hlen)

theorem retryable (hs : s.binitialized = false) (hsize : 0 < s.imemSize) (hlen : 0 < s.imemLen) :
    Retryable s :=
  fun _ a b ha hb ↦ ⟨s.inited a b, mmPoolInit_both hs hsize ha hb, inited_shape hsize hlen a b⟩

theorem mmPoolRoundup_pos {n : ℕ} (hn : 0 < n) : 0 < mmPoolRoundup n 4 :=
  lt_of_lt_of_le (by decide) (le_mmPoolRoundup hn)

theorem Balanced.inited (h : Balanced s) (hs : s.binitialized = false) (a b : Addr) :
    Balanced (s.inited a b) := by
  obtain ⟨⟨live, hlive, hperm⟩, hself⟩ := h
  obtain rfl : live = [] := by simpa [Pool.blocks, hs] using hperm
  refine ⟨⟨[b, a], ?_, ?_⟩, ?_⟩
  · exact liveBlocks_malloc (liveBlocks_malloc hlive a) b
  · simpa [Pool.blocks, Pool.inited, Pool.refill] using List.Perm.swap a b []
  · simpa [Pool.inited, Pool.refill, Pool.logged, Pool.rounded] using hself

/-- A call on an uninitialised pool. -/
theorem cocolFuncMalloc_uninit (hs : s.binitialized = false) (hsize : 0 < s.imemSize)
    (v : List UInt8) (env : Env) :
    (env.mallocRoot = none ∧ cocolFuncMalloc s v env = .ok (none, s.rounded)) ∨
    (∃ a, env.mallocRoot = some a ∧ env.mallocData = none ∧ cocolFuncMalloc s v env =
      .ok (none, (s.rounded.logged (.malloc a)).logged (.free s.self))) ∨
    ∃ a b, env.mallocRoot = some a ∧ env.mallocData = some b ∧
      cocolFuncMalloc s v env = cocolFuncMalloc (s.inited a b) v env := by
  have hensure : ensureInit s env = (mmPoolInit s env).map Prod.snd := by
    simp [ensureInit, hs]
  have hstill : ∀ c d, ((s.rounded.logged c).logged d).binitialized = false := fun _ _ ↦ hs
  cases ha : env.mallocRoot with
  | none =>
      refine .inl ⟨rfl, ?_⟩
      have hr : s.rounded.binitialized = false := hs
      simp [cocolFuncMalloc, hensure, mmPoolInit_noRoot hs ha, Except.map, Except.bind,
        mmPoolGetElem, hr]
  | some a =>
      cases hb : env.mallocData with
      | none =>
          refine .inr (.inl ⟨a, rfl, rfl, ?_⟩)
          simp [cocolFuncMalloc, hensure, mmPoolInit_noData hs ha hb, Except.map, Except.bind,
            mmPoolGetElem, hstill]
      | some b =>
          refine .inr (.inr ⟨a, b, rfl, rfl, ?_⟩)
          have hr : (s.inited a b).binitialized = true := rfl
          simp [cocolFuncMalloc, ensureInit, hs, mmPoolInit_both hs hsize ha hb, hr, Except.map,
            Except.bind]

end Init

/-! ## Runs -/

section Runs

variable {s t : Pool} {op : MallocOp}

theorem mallocStep_ok (h : mallocStep s op = .ok t) :
    ∃ r, cocolFuncMalloc s op.1 op.2 = .ok (r, t) := by
  obtain ⟨⟨r, u⟩, hu, rfl⟩ := map_eq_ok_iff.mp h
  exact ⟨r, hu⟩

theorem Ready.step (hs : Ready s) (h : mallocStep s op = .ok t) : Ready t := by
  obtain ⟨r, hr⟩ := mallocStep_ok h
  cases hinit : s.binitialized with
  | true =>
      have hshape := (mallocCase (hs.shape hinit) hr).shape (hs.shape hinit)
      exact ⟨fun _ ↦ hshape, fun hno ↦ absurd (hshape.init.symm.trans hno) (by simp)⟩
  | false =>
      obtain ⟨hsize, hlen⟩ := hs.uninit hinit
      have hpos : 0 < s.rounded.imemSize ∧ 0 < s.rounded.imemLen :=
        ⟨mmPoolRoundup_pos hsize, mmPoolRoundup_pos hlen⟩
      rcases cocolFuncMalloc_uninit hinit hsize op.1 op.2 with
        ⟨-, heq⟩ | ⟨a, -, -, heq⟩ | ⟨a, b, -, -, heq⟩
      · rw [heq] at hr
        obtain ⟨-, rfl⟩ := Prod.mk.inj (Except.ok.inj hr)
        exact ⟨fun hyes ↦ absurd (hinit.symm.trans hyes) (by simp), fun _ ↦ hpos⟩
      · rw [heq] at hr
        obtain ⟨-, rfl⟩ := Prod.mk.inj (Except.ok.inj hr)
        exact ⟨fun hyes ↦ absurd (hinit.symm.trans hyes) (by simp), fun _ ↦ hpos⟩
      · rw [heq] at hr
        have hshape := inited_shape (s := s) hsize hlen a b
        have hshape' := (mallocCase hshape hr).shape hshape
        exact ⟨fun _ ↦ hshape', fun hno ↦ absurd (hshape'.init.symm.trans hno) (by simp)⟩

theorem Balanced.step (hs : Ready s) (hb : Balanced s) (hop : NoHalfInit s op)
    (h : mallocStep s op = .ok t) : Balanced t := by
  obtain ⟨r, hr⟩ := mallocStep_ok h
  cases hinit : s.binitialized with
  | true => exact (mallocCase (hs.shape hinit) hr).balanced (hs.shape hinit) hb
  | false =>
      obtain ⟨hsize, hlen⟩ := hs.uninit hinit
      rcases cocolFuncMalloc_uninit hinit hsize op.1 op.2 with
        ⟨-, heq⟩ | ⟨a, ha, hnone, -⟩ | ⟨a, b, -, -, heq⟩
      · rw [heq] at hr
        obtain ⟨-, rfl⟩ := Prod.mk.inj (Except.ok.inj hr)
        exact hb.transport rfl rfl rfl
      · exact absurd hnone (hop hinit (by simp [ha]))
      · rw [heq] at hr
        have hshape := inited_shape (s := s) hsize hlen a b
        exact (mallocCase hshape hr).balanced hshape (hb.inited hinit a b)

/-- A half-made initialisation frees the static pool header. -/
theorem not_balanced_of_halfInit (hs : Ready s) (op : MallocOp) (hop : ¬NoHalfInit s op) :
    ∃ t, mallocStep s op = .ok t ∧ ¬Balanced t := by
  simp only [NoHalfInit, not_forall, not_not] at hop
  obtain ⟨hinit, hroot, hdata⟩ := hop
  rcases cocolFuncMalloc_uninit hinit (hs.uninit hinit).1 op.1 op.2 with
    ⟨hnone, -⟩ | ⟨a, -, -, heq⟩ | ⟨a, b, -, hb, -⟩
  · exact absurd hnone hroot
  · refine ⟨(s.rounded.logged (.malloc a)).logged (.free s.self), ?_, fun h ↦ h.2 ?_⟩
    · simp [mallocStep, heq, Except.map]
    · simp [Pool.logged, Pool.rounded]
  · simp [hdata] at hb

theorem Ready.failsClean (hs : Ready s) (op : MallocOp) : FailsClean s op := by
  intro r t hr
  refine ⟨fun hinit hfail ↦ ?_, fun hinit hnull ↦ ?_⟩
  · obtain ⟨hsize, hlen⟩ := hs.uninit hinit
    rcases cocolFuncMalloc_uninit hinit hsize op.1 op.2 with
      ⟨-, heq⟩ | ⟨a, -, -, heq⟩ | ⟨a, b, ha, hb, -⟩
    · rw [heq] at hr
      obtain ⟨rfl, rfl⟩ := Prod.mk.inj (Except.ok.inj hr)
      exact ⟨rfl, hinit, retryable hinit (mmPoolRoundup_pos hsize) (mmPoolRoundup_pos hlen)⟩
    · rw [heq] at hr
      obtain ⟨rfl, rfl⟩ := Prod.mk.inj (Except.ok.inj hr)
      exact ⟨rfl, hinit, retryable hinit (mmPoolRoundup_pos hsize) (mmPoolRoundup_pos hlen)⟩
    · simp [ha, hb] at hfail
  · subst hnull
    exact (mallocCase (hs.shape hinit) hr).intact (hs.shape hinit)

/-- Along a run of requests each failing call leaves the pool intact, and
the blocks stay balanced exactly when no lazy initialisation gets one block
of two. -/
theorem balanced_iff_noHalfInit (s : Pool) (hs : Ready s) (hb : Balanced s)
    (ops : List MallocOp) :
    (Always mallocStep Balanced s ops ∧ EachStep mallocStep FailsClean s ops) ↔
      EachStep mallocStep NoHalfInit s ops := by
  have hready : Always mallocStep Ready s ops :=
    always_of_step (fun _ _ _ h ht ↦ h.step ht) hs ops
  constructor
  · rintro ⟨h, -⟩
    refine eachStep_of_always (I := fun s ↦ Ready s ∧ Balanced s) (E := fun _ ↦ False)
      (fun _ _ _ hu hop ht ↦ ⟨hu.1.step ht, hu.2.step hu.1 hop ht⟩) ?_ ⟨hs, hb⟩ h (by simp)
    intro u op hu hok _
    by_contra hop
    obtain ⟨t, ht, hnot⟩ := not_balanced_of_halfInit hu.1 op hop
    exact hnot (hok t ht)
  · intro h
    refine ⟨?_, hready.eachStep fun _ op hu ↦ hu.failsClean op⟩
    have hboth : Always mallocStep (fun s ↦ Ready s ∧ Balanced s) s ops :=
      always_of_eachStep (fun _ _ _ hu hop ht ↦ ⟨hu.1.step ht, hu.2.step hu.1 hop ht⟩) ⟨hs, hb⟩ h
    exact hboth.mono fun _ hu ↦ hu.2

theorem PoolDecl.pool_ready (d : PoolDecl) : Ready d.pool :=
  ⟨fun h ↦ by simp [PoolDecl.pool] at h, fun _ ↦ ⟨d.size_pos, d.len_pos⟩⟩

theorem PoolDecl.pool_balanced (d : PoolDecl) : Balanced d.pool :=
  ⟨⟨[], rfl, by simp [Pool.blocks, PoolDecl.pool]⟩, by simp [PoolDecl.pool]⟩

def headersOnly : Env := { noMemory with mallocRoot := some 0x3000 }

/-- The first request of a program that has memory for the headers of the
character pool but not for its data. -/
theorem not_balanced_char :
    Ready (gCharHeader 0x1000 0x2000).pool ∧ Balanced (gCharHeader 0x1000 0x2000).pool ∧
    ¬Always mallocStep Balanced (gCharHeader 0x1000 0x2000).pool [([7, 0, 0, 0], headersOnly)] := by
  refine ⟨PoolDecl.pool_ready _, PoolDecl.pool_balanced _, fun h ↦ ?_⟩
  obtain ⟨t, ht, hnot⟩ := not_balanced_of_halfInit
    (PoolDecl.pool_ready (gCharHeader 0x1000 0x2000)) ([7, 0, 0, 0], headersOnly)
    (fun hno ↦ hno rfl (by decide) rfl)
  exact hnot (h.2 t ht)

theorem balanced_iff_noHalfInit_char :
    Always mallocStep Balanced (gCharHeader 0x1000 0x2000).pool
      [([7, 0, 0, 0], noMemory), ([7, 0, 0, 0], { headersOnly with mallocData := some 0x4000 })] :=
  ((balanced_iff_noHalfInit _ (PoolDecl.pool_ready (gCharHeader 0x1000 0x2000))
    (PoolDecl.pool_balanced _) _).mpr (by decide +kernel)).1

end Runs

end Cocool.Mmp
