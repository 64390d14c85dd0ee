import Cocool.Mmp.Partition

/-!
# The two names of a slot

A header names its slot by `iheapIdx`, which the lookup follows, and by
`privData`, which the client reads and writes through.  Initialisation and
refill set both; a free and an expansion only move the first.
-/

namespace Cocool.Mmp

open Session Lib

/-- The slot at which both fields of a header point. -/
def CocolTypeHeader.Coherent (s : Pool) (e : CocolTypeHeader) : Prop :=
  e.privData = s.pmemData + s.imemLen * e.iheapIdx

structure Coherent (s : Pool) : Prop where
  proot : ∀ i < s.imemSize, (s.headers i).Coherent s
  buff : ∀ k < mmPoolBuff, (s.buff k).Coherent s

/-- What a lookup hit returns reads back as the value looked up. -/
def HitReads (s : Session) : Op → Prop
  | .malloc v env => ∀ i ∈ s.pool.lookup v, ∀ p t,
      cocolFuncMalloc s.pool v env = .ok (some p, t) → ∃ e ∈ t.deref p,
        t.pmemData ≤ e.privData ∧ e.privData + t.imemLen ≤ t.pmemData + t.dataCap ∧
          t.readData (e.privData - t.pmemData) t.imemLen = v
  | _ => True

/-- No expansion succeeds, and what is freed sits at the boundary. -/
def CoherenceSafe (s : Session) : Op → Prop
  | .malloc v env =>
      s.pool.lookup v = none → s.pool.buffMask = 4 → s.pool.imemFree < 4 →
        env.reallocRoot = none ∨ env.reallocData = none
  | .free j =>
      ∀ g ∈ s.live[j]?, ∀ e ∈ s.pool.deref g.ptr, e.iheapIdx = s.pool.slotAt s.pool.imemFree
  | _ => True

instance (s : Pool) (e : CocolTypeHeader) : Decidable (e.Coherent s) :=
  inferInstanceAs (Decidable (_ = _))

instance (s : Session) : DecidablePred (CoherenceSafe s)
  | .malloc _ _ => inferInstanceAs (Decidable (_ → _ → _ → _))
  | .free j => inferInstanceAs (Decidable (∀ g ∈ s.live[j]?, ∀ e ∈ s.pool.deref g.ptr, _))
  | .init _ _ _ => isTrue trivial
  | .dup _ => isTrue trivial

theorem Coherent.bumpRef {s : Pool} (h : Coherent s) (i : ℕ) : Coherent (s.bumpRef i) := by
  refine ⟨fun j hj ↦ ?_, h.buff⟩
  have hold := h.proot j hj
  by_cases hji : j = i
  · subst hji
    simpa [CocolTypeHeader.Coherent, Pool.bumpRef] using hold
  · simpa [CocolTypeHeader.Coherent, Pool.bumpRef, hji] using hold

theorem Pool.coherent_refill (s : Pool) {k : ℕ} (hk : k < mmPoolBuff) :
    ((s.refill 4).buff k).Coherent (s.refill 4) := by
  have hk' : k < 4 := hk
  simp [CocolTypeHeader.Coherent, refill, hk']

theorem Coherent.refill {s : Pool} (h : Coherent s) (m : ℕ) :
    Coherent { s.refill 4 with buffMask := m } :=
  ⟨h.proot, fun _ hk ↦ s.coherent_refill hk⟩

theorem Coherent.reallocRoot {s : Pool} (h : Coherent s) (hs : s.Shape) (env : Env) (a : Addr) :
    Coherent (s.reallocRoot env a) := by
  refine ⟨fun i hi ↦ ?_, h.buff⟩
  have hin : i < s.headerCap := Nat.lt_of_lt_of_le hi hs.cap
  have hold := h.proot i hi
  simpa [CocolTypeHeader.Coherent, Pool.reallocRoot, Pool.logged, hin] using hold

theorem MallocCase.coherent {s t : Pool} {live : List Grant} {v : List UInt8} {env : Env}
    {r : Option HeaderPtr} (hc : MallocCase s v env r t) (hs : s.Shape) (h : Coherent s)
    (hop : CoherenceSafe ⟨s, live⟩ (.malloc v env)) : Coherent t := by
  cases hc with
  | hit i _ _ => exact h.bumpRef i
  | take _ _ => exact ⟨h.proot, h.buff⟩
  | refill _ _ _ _ => exact h.refill 1
  | grow hmiss hm hf a b ha hb =>
      rcases hop hmiss hm hf with hnone | hnone
      · simp [ha] at hnone
      · simp [hb] at hnone
  | noRoot _ _ _ _ => exact h
  | noData _ _ _ a _ _ => exact h.reallocRoot hs env a

theorem step_coherent {s t : Session} {op : Op} (hs : s.pool.Shape ∧ Coherent s.pool)
    (hop : CoherenceSafe s op) (h : step s op = .ok t) : t.pool.Shape ∧ Coherent t.pool := by
  refine ⟨step_shape hs.1 h, ?_⟩
  cases stepCase hs.1 h with
  | malloc v env p t e _ hc _ => exact hc.coherent hs.1 hs.2 hop
  | null v env t hc => exact hc.coherent hs.1 hs.2 hop
  | init p v env e _ _ _ _ => exact ⟨hs.2.proot, hs.2.buff⟩
  | free j g e hg _ he =>
      rw [Pool.freed_of_eq he (hop g hg e he)]
      exact ⟨hs.2.proot, hs.2.buff⟩
  | dup p e _ => exact ⟨hs.2.proot, hs.2.buff⟩

theorem hitReads_of_coherent {s : Session} {op : Op} (hs : s.pool.Shape ∧ Coherent s.pool) :
    HitReads s op := by
  cases op with
  | malloc v env =>
      intro i hi p t hmalloc
      cases mallocCase hs.1 hmalloc with
      | hit j hj hlen =>
          obtain rfl : j = i := Option.some.inj (hj.symm.trans hi)
          obtain ⟨-, hlt, hbytes⟩ := Pool.lookup_eq_some hj
          have hin : j < s.pool.headerCap := hlt.trans_le hs.1.cap
          have hpriv : (s.pool.headers j).privData =
            s.pool.pmemData + s.pool.imemLen * (s.pool.headers j).iheapIdx := hs.2.proot j hlt
          have hnew : ((s.pool.bumpRef j).headers j).privData = (s.pool.headers j).privData := by
            simp [Pool.bumpRef]
          refine ⟨(s.pool.bumpRef j).headers j, ?_, ?_, ?_, ?_⟩
          · simp [Pool.deref, Pool.bumpRef, hin]
          · rw [hnew, hpriv]
            exact Nat.le_add_right _ _
          · rw [hnew, hpriv, Nat.add_assoc]
            exact Nat.add_le_add_left hlen _
          · rw [hnew, hpriv, show (s.pool.bumpRef j).pmemData = s.pool.pmemData from rfl,
              Nat.add_sub_cancel_left]
            exact hbytes
      | take hmiss _ => simp [hmiss] at hi
      | refill hmiss _ _ _ => simp [hmiss] at hi
      | grow hmiss _ _ _ _ _ _ => simp [hmiss] at hi
  | _ => trivial

theorem PoolDecl.initial_coherent (d : PoolDecl) (a b : Addr) : Coherent (d.initial a b) :=
  ⟨fun _ _ ↦ rfl, fun _ hk ↦ Pool.coherent_refill _ hk⟩

/-- The two names of a slot agree in every header, and lookup hits read back
what was looked up, in a run without a successful expansion whose frees
swap nothing. -/
theorem coherent_of_coherenceSafe {d : PoolDecl} {s : Session} (hs : Started d s)
    {ops : List Op} (h : EachStep step CoherenceSafe s ops) :
    Always step (fun t ↦ Coherent t.pool) s ops ∧ EachStep step HitReads s ops := by
  have halways : Always step (fun t ↦ t.pool.Shape ∧ Coherent t.pool) s ops := by
    obtain ⟨a, b, rfl⟩ := hs.eq_initial
    exact always_of_eachStep (fun _ _ _ ↦ step_coherent)
      ⟨d.initial_shape a b, d.initial_coherent a b⟩ h
  exact ⟨halways.mono fun _ ht ↦ ht.2, halways.eachStep fun _ _ ↦ hitReads_of_coherent⟩

/-- The free of one value renames the header at the boundary and leaves its
data pointer. -/
theorem coherent_free_once :
    Started (gCharHeader 0x1000 0x2000) ⟨(gCharHeader 0x1000 0x2000).initial 0x3000 0x4000, []⟩ ∧
    ¬Always step (fun t ↦ Coherent t.pool)
      ⟨(gCharHeader 0x1000 0x2000).initial 0x3000 0x4000, []⟩
      [.malloc [0, 0, 0, 7] noMemory, .init (.buff 0) [0, 0, 0, 7] noMemory, .free 0] := by
  have hhead : ¬Always step (fun t ↦ 124 < t.pool.imemSize → (t.pool.headers 124).Coherent t.pool)
      ⟨(gCharHeader 0x1000 0x2000).initial 0x3000 0x4000, []⟩
      [.malloc [0, 0, 0, 7] noMemory, .init (.buff 0) [0, 0, 0, 7] noMemory, .free 0] := by
    decide +kernel
  exact ⟨started_initial _ _ _, fun h ↦ hhead (h.mono fun _ ht ↦ ht.proot 124)⟩

theorem coherent_of_coherenceSafe_char :
    Always step (fun t ↦ Coherent t.pool)
      ⟨(gCharHeader 0x1000 0x2000).initial 0x3000 0x4000, []⟩
      [.malloc [0, 0, 0, 1] noMemory, .malloc [0, 0, 0, 2] noMemory,
        .malloc [0, 0, 0, 3] noMemory, .malloc [0, 0, 0, 4] noMemory, .free 0,
        .malloc [0, 0, 0, 5] noMemory] ∧
    EachStep step HitReads ⟨(gCharHeader 0x1000 0x2000).initial 0x3000 0x4000, []⟩
      [.malloc [0, 0, 0, 1] noMemory, .malloc [0, 0, 0, 2] noMemory,
        .malloc [0, 0, 0, 3] noMemory, .malloc [0, 0, 0, 4] noMemory, .free 0,
        .malloc [0, 0, 0, 5] noMemory] :=
  coherent_of_coherenceSafe (started_initial (gCharHeader 0x1000 0x2000) 0x3000 0x4000)
    (by decide +kernel)

end Cocool.Mmp
