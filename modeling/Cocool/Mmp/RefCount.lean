import Cocool.Mmp.Partition
import Mathlib.Data.List.Perm.Basic

/-!
# Reference counts

`irefcount` is raised by a lookup hit and by nothing else, it is never
lowered, and it stays with its position in `proot` while frees and
expansions move the slots.
-/

namespace Cocool.Mmp

open Session Lib

def outstanding (live : List Grant) (k : ℕ) : ℕ := live.countP fun g ↦ g.slot = k

/-- The live handles that name the slot now. -/
def outstandingNow (s : Session) (k : ℕ) : ℕ :=
  s.live.countP fun g : Grant ↦ decide (∃ e ∈ s.pool.deref g.ptr, e.iheapIdx = k)

/-- Each slot with outstanding headers is named by a header of `proot`
behind the free region, and that header counts them but the first. -/
structure RefCounted (s : Pool) (count : ℕ → ℕ) : Prop where
  not_inFree : ∀ k, 0 < count k → ¬s.InFree k
  named : ∀ k, 0 < count k → ∃ i < s.imemSize, s.slotAt i = k
  refcount : ∀ i < s.imemSize, 0 < count (s.slotAt i) →
    (s.headers i).irefcount.toNat + 1 = count (s.slotAt i)

/-- An expansion leaves a zero count with the slot it hands out, and each
used slot that moves to the end of the array finds its count there. -/
def CountsMove (s : Pool) (env : Env) (a : Addr) : Prop :=
  ((s.reallocRoot env a).headers (s.imemFree + 15)).irefcount = 0 ∧
    ∀ k < 16, 16 ≤ k + (s.imemSize - s.imemFree) →
      ((s.reallocRoot env a).headers (s.imemSize + k)).irefcount =
        (s.headers (s.imemFree + k % (s.imemSize - s.imemFree))).irefcount

/-- The slot that the next miss hands out has a zero count. -/
def FreshCount (s : Pool) (env : Env) : Prop :=
  if s.buffMask < 4 then
    ∀ i < s.imemSize, s.slotAt i = (s.buff s.buffMask).iheapIdx → (s.headers i).irefcount = 0
  else if 4 ≤ s.imemFree then (s.headers (s.imemFree - 1)).irefcount = 0
  else env.reallocData ≠ none → ∀ a ∈ env.reallocRoot, CountsMove s env a

/-- A new slot starts from a zero count, a hit is on a slot that is held and
whose count does not wrap around, a handle is only freed as the last one and
while its slot sits at the boundary, and no header is copied. -/
def RefSafe (s : Session) : Op → Prop
  | .malloc v env =>
      (∀ i ∈ s.pool.lookup v,
        Held s.live (s.pool.slotAt i) ∧ (s.pool.headers i).irefcount.toNat + 1 < UInt32.size) ∧
      (s.pool.lookup v = none → FreshCount s.pool env)
  | .dup _ => False
  | .free j => SlotSafe s (.free j)
  | .init _ _ _ => True

instance (s : Pool) (env : Env) (a : Addr) : Decidable (CountsMove s env a) := by
  unfold CountsMove
  infer_instance

instance (s : Pool) (env : Env) : Decidable (FreshCount s env) := by
  unfold FreshCount
  infer_instance

instance (s : Session) : DecidablePred (RefSafe s)
  | .malloc v _ => inferInstanceAs (Decidable ((∀ i ∈ s.pool.lookup v, _) ∧ (_ → _)))
  | .free j => inferInstanceAs (Decidable (SlotSafe s (.free j)))
  | .dup _ => isFalse id
  | .init _ _ _ => isTrue trivial

theorem outstanding_pos {live : List Grant} {k : ℕ} : 0 < outstanding live k ↔ Held live k := by
  simp [outstanding, Held]

theorem outstanding_cons (g : Grant) (live : List Grant) (k : ℕ) :
    outstanding (g :: live) k = outstanding live k + if g.slot = k then 1 else 0 := by
  simp [outstanding, List.countP_cons]

theorem outstanding_eraseIdx {live : List Grant} {j : ℕ} {g : Grant} (hg : live[j]? = some g)
    {k : ℕ} (hk : k ≠ g.slot) : outstanding (live.eraseIdx j) k = outstanding live k := by
  obtain ⟨hj, rfl⟩ := List.getElem?_eq_some_iff.mp hg
  have hperm := (List.getElem_cons_eraseIdx_perm hj).countP_eq fun g ↦ decide (g.slot = k)
  rw [List.countP_cons_of_neg (by simpa using hk.symm)] at hperm
  exact hperm

def Counted (s : Pool) (live : List Grant) : Prop :=
  ∀ i < s.imemSize, Held live (s.slotAt i) →
    (s.headers i).irefcount.toNat + 1 = outstanding live (s.slotAt i)

structure RefInv (s : Session) : Prop where
  slots : SlotInv s
  counted : Counted s.pool s.live

theorem RefInv.refCounted {s : Session} (hs : RefInv s) :
    RefCounted s.pool (outstanding s.live) := by
  have hsplit := hs.slots.split
  have hused : ∀ k, 0 < outstanding s.live k → s.pool.Used k := fun k hk ↦
    (hsplit.used_iff k).mpr (.inr (outstanding_pos.mp hk))
  refine ⟨fun k hk ↦ ?_, fun k hk ↦ ?_, fun i hi hk ↦ ?_⟩
  · exact ((s.pool.used_iff_not_inFree hsplit.free_le hsplit.arranged k).mp (hused k hk)).2
  · obtain ⟨i, hi, -, heq⟩ := hused k hk
    exact ⟨i, hi, heq⟩
  · exact hs.counted i hi (outstanding_pos.mp hk)

theorem RefInv.slotSafe {s : Session} (hs : RefInv s) {op : Op} (hop : RefSafe s op) :
    SlotSafe s op := by
  cases op with
  | malloc v env =>
      intro i hi hres
      exact hs.slots.split.disjoint _ hres (hop.1 i hi).1
  | init p v env => trivial
  | free j => exact hop
  | dup p => exact hop.elim

/-! ## One step -/

theorem Counted.take {s t : Pool} {live : List Grant} (h : Counted s live)
    (hsize : t.imemSize = s.imemSize) (hhead : t.headers = s.headers) {g : Grant}
    (hnew : ¬Held live g.slot)
    (hzero : ∀ i < s.imemSize, s.slotAt i = g.slot → (s.headers i).irefcount = 0) :
    Counted t (g :: live) := by
  intro i hi hk
  rw [hsize] at hi
  have hslot : t.slotAt i = s.slotAt i := by simp only [Pool.slotAt, hhead]
  rw [hslot] at hk ⊢
  rw [hhead, outstanding_cons]
  by_cases heq : s.slotAt i = g.slot
  · have hnone : outstanding live g.slot = 0 :=
      Nat.eq_zero_of_not_pos fun hpos ↦ hnew (outstanding_pos.mp hpos)
    simp [hzero i hi heq, heq, hnone]
  · have hheld := (held_cons.mp hk).resolve_left heq
    simpa [Ne.symm heq] using h i hi hheld

theorem Counted.bumpRef {s : Pool} {live : List Grant} (h : Counted s live)
    (harr : Arranged s.slotAt s.imemSize) {i : ℕ} (hi : i < s.imemSize)
    (hheld : Held live (s.slotAt i)) (hwrap : (s.headers i).irefcount.toNat + 1 < UInt32.size)
    {g : Grant} (hg : g.slot = s.slotAt i) : Counted (s.bumpRef i) (g :: live) := by
  intro j hj hk
  rw [s.slotAt_bumpRef] at hk ⊢
  rw [outstanding_cons, hg]
  by_cases hji : j = i
  · subst hji
    have hold := h j hj hheld
    have hadd : ((s.headers j).irefcount + 1).toNat = (s.headers j).irefcount.toNat + 1 := by
      rw [UInt32.toNat_add, UInt32.toNat_one]
      exact Nat.mod_eq_of_lt hwrap
    simp only [Pool.bumpRef, Function.update_self, hadd, hold, ↓reduceIte]
  · have hne : s.slotAt i ≠ s.slotAt j := fun heq ↦ hji (harr.inj j i hj hi heq.symm)
    have hheld' : Held live (s.slotAt j) :=
      (held_cons.mp hk).resolve_left fun heq ↦ hne (hg ▸ heq.symm)
    simpa [Pool.bumpRef, hji, hne] using h j hj hheld'

theorem Counted.release {s : Pool} {live : List Grant} (h : Counted s live) {j : ℕ} {g : Grant}
    (hg : live[j]? = some g) (hsole : ¬Held (live.eraseIdx j) g.slot) :
    Counted s.released (live.eraseIdx j) := by
  intro i hi hk
  have hslot : s.released.slotAt i = s.slotAt i := rfl
  rw [hslot] at hk ⊢
  have hne : s.slotAt i ≠ g.slot := fun heq ↦ hsole (heq ▸ hk)
  rw [outstanding_eraseIdx hg hne]
  exact h i hi ((held_eraseIdx hg _).mpr (.inr hk))

theorem Counted.refill {s : Pool} {live : List Grant} (h : Counted s live)
    (hsplit : Split s (Held live)) (hf : 4 ≤ s.imemFree)
    (hzero : (s.headers (s.imemFree - 1)).irefcount = 0) {p : HeaderPtr} {priv base : Addr} :
    Counted { s.refill 4 with buffMask := 1 }
      (⟨p, ((s.refill 4).buff 0).iheapIdx, priv, base⟩ :: live) := by
  have hle := hsplit.free_le
  have hslot : ((s.refill 4).buff 0).iheapIdx = s.slotAt (s.imemFree - 1) :=
    Pool.buff_refill (by omega)
  refine h.take rfl rfl (fun hk ↦ ?_) fun i hi heq ↦ ?_
  · have hused := (hsplit.used_iff _).mpr (.inr hk)
    rw [s.used_iff_not_inFree hle hsplit.arranged] at hused
    exact hused.2 ⟨s.imemFree - 1, by omega, hslot.symm⟩
  · rw [hsplit.arranged.inj i (s.imemFree - 1) hi (by omega) (heq.trans hslot)]
    exact hzero

/-- The expansion puts free slots where used ones were, with the counts of
those, and used slots where the new block holds their counts already. -/
theorem Counted.expanded {s : Pool} {live : List Grant} (h : Counted s live) (hs : s.Shape)
    (hsplit : Split s (Held live)) {env : Env} {a : Addr} (b : Addr)
    (hmove : CountsMove s env a) : Counted (s.expanded env a b) live := by
  have hcap := hs.cap
  have hhead : ∀ j < s.imemSize, (s.reallocRoot env a).headers j = s.headers j := by
    intro j hj
    simp [Pool.reallocRoot, Pool.logged, show j < s.headerCap by omega]
  have hfree : ∀ j < s.imemFree, ¬Held live (s.slotAt j) := by
    intro j hj hk
    have hused := (hsplit.used_iff _).mpr (.inr hk)
    exact ((s.used_iff_not_inFree hsplit.free_le hsplit.arranged _).mp hused).2 ⟨j, hj, rfl⟩
  have hlt : ∀ k, Held live k → k < s.imemSize := fun k hk ↦ hsplit.partition.held_lt k hk
  have hle := hsplit.free_le
  intro j hj hk
  have hcount : ((s.expanded env a b).headers j).irefcount =
      ((s.reallocRoot env a).headers j).irefcount := rfl
  have hj' : j < s.imemSize + 16 := hj
  have hslot := Pool.slotAt_expanded hcap hle env a b hj'
  rw [hcount]
  rw [hslot] at hk ⊢
  split_ifs at hk ⊢ with h₁ h₂ h₃
  · exact absurd hk (hfree j h₁)
  · have hbad := hlt _ hk
    omega
  · rw [hhead j h₃]
    exact h j h₃ hk
  · obtain ⟨k, rfl⟩ : ∃ k, j = s.imemSize + k := ⟨j - s.imemSize, by omega⟩
    have hmod := Nat.mod_lt k (show 0 < s.imemSize - s.imemFree by omega)
    rw [Nat.add_sub_cancel_left] at hk ⊢
    rw [hmove.2 k (by omega) (by omega)]
    exact h _ (by omega) hk

theorem MallocCase.counted {s t : Pool} {live : List Grant} {v : List UInt8} {env : Env}
    {p : HeaderPtr} {e : CocolTypeHeader} (hc : MallocCase s v env (some p) t) (hs : s.Shape)
    (hsplit : Split s (Held live)) (h : Counted s live)
    (hop : RefSafe ⟨s, live⟩ (.malloc v env)) (he : t.deref p = some e) :
    Counted t (⟨p, e.iheapIdx, e.privData, t.pmemData⟩ :: live) := by
  cases hc with
  | hit i hi _ =>
      obtain ⟨hheld, hwrap⟩ := hop.1 i hi
      exact h.bumpRef hsplit.arranged (Pool.lookup_eq_some hi).2.1 hheld hwrap
        (Pool.slot_of_hit he)
  | take hmiss hm =>
      obtain rfl := Pool.deref_take hm he
      have hfresh := hop.2 hmiss
      simp only [FreshCount, if_pos hm] at hfresh
      have hnew : ¬Held live (s.buff s.buffMask).iheapIdx :=
        hsplit.disjoint _ ⟨s.buffMask, hm, le_rfl, rfl⟩
      exact h.take rfl rfl hnew hfresh
  | refill hmiss hm hf _ =>
      obtain rfl := Pool.deref_refill he
      have hfresh := hop.2 hmiss
      simp only [FreshCount, hm, lt_irrefl, if_false, if_pos hf] at hfresh
      exact h.refill hsplit hf hfresh
  | grow hmiss hm hf a b ha hb =>
      obtain rfl := Pool.deref_refill he
      have hmove := hop.2 hmiss
      simp only [FreshCount, hm, lt_irrefl, if_false, if_neg (Nat.not_le.mpr hf)] at hmove
      have hmove : CountsMove s env a := hmove (by simp [hb]) a ha
      have hf' := s.four_le_expanded env a b
      exact (h.expanded hs hsplit b hmove).refill (hsplit.expanded hs hm env a b) hf' hmove.1

theorem step_refInv {s t : Session} {op : Op} (hs : RefInv s) (hop : RefSafe s op)
    (h : step s op = .ok t) : RefInv t := by
  refine ⟨step_slotInv hs.slots (hs.slotSafe hop) h, ?_⟩
  obtain ⟨⟨hshape, -, hsplit, -⟩, hcounted⟩ := hs
  cases stepCase hshape h with
  | malloc v env p t e _ hc he => exact hc.counted hshape hsplit hcounted hop he
  | null v env t hc =>
      cases hc with
      | noRoot _ _ _ _ => exact hcounted
      | noData _ _ _ a _ _ =>
          have hcap := hshape.cap
          have hhead : ∀ i < s.pool.imemSize,
              (s.pool.reallocRoot env a).headers i = s.pool.headers i := by
            intro i hi
            simp [Pool.reallocRoot, Pool.logged, show i < s.pool.headerCap by omega]
          intro i hi hk
          simp only [Pool.slotAt, hhead i hi] at hk ⊢
          exact hcounted i hi hk
  | init p v env e _ _ _ _ => exact hcounted
  | free j g e hg _ he =>
      obtain ⟨hes, hboundary, hsole⟩ := hop g hg e he
      rw [Pool.freed_of_eq he (hes.trans hboundary)]
      exact hcounted.release hg hsole
  | dup p e he => exact hop.elim

theorem outstandingNow_eq {s : Session} (hs : Stable s) (k : ℕ) :
    outstandingNow s k = outstanding s.live k := by
  refine List.countP_congr fun g hg ↦ ?_
  obtain ⟨e, he, hslot, -⟩ := hs g hg
  simp [Option.mem_def.mp he, hslot]

theorem PoolDecl.initial_refInv (d : PoolDecl) (a b : Addr) : RefInv ⟨d.initial a b, []⟩ := by
  refine ⟨d.initial_slotInv a b, fun i _ hk ↦ ?_⟩
  simp [Held] at hk

/-- Counts are right, and no slot is freed under another handle, in every
run whose steps meet the condition; where handles also keep their slots the
same holds of the slots they name at each moment. -/
theorem refCounted_of_refSafe {d : PoolDecl} {s : Session} (hs : Started d s) {ops : List Op}
    (h : EachStep step RefSafe s ops) :
    Always step (fun t ↦ RefCounted t.pool (outstanding t.live)) s ops ∧
    (EachStep step HandleSafe s ops →
      Always step (fun t ↦ RefCounted t.pool (outstandingNow t)) s ops) := by
  have halways : Always step RefInv s ops := by
    obtain ⟨a, b, rfl⟩ := hs.eq_initial
    exact always_of_eachStep (fun _ _ _ ↦ step_refInv) (d.initial_refInv a b) h
  refine ⟨halways.mono fun _ ht ↦ ht.refCounted, fun h' ↦ ?_⟩
  refine (halways.and (always_stableInv hs h')).mono fun t ht ↦ ?_
  have heq : outstandingNow t = outstanding t.live := funext (outstandingNow_eq ht.2.stable)
  rw [heq]
  exact ht.1.refCounted

/-- One value interned twice: the free of the first handle puts the slot
into the free region under the second. -/
theorem refCounted_free_shared :
    Started (gCharHeader 0x1000 0x2000) ⟨(gCharHeader 0x1000 0x2000).initial 0x3000 0x4000, []⟩ ∧
    ¬Always step (fun t ↦ RefCounted t.pool (outstanding t.live))
      ⟨(gCharHeader 0x1000 0x2000).initial 0x3000 0x4000, []⟩
      [.malloc [0, 0, 0, 7] noMemory, .init (.buff 0) [0, 0, 0, 7] noMemory,
        .malloc [0, 0, 0, 7] noMemory, .free 1] ∧
    ¬Always step (fun t ↦ RefCounted t.pool (outstandingNow t))
      ⟨(gCharHeader 0x1000 0x2000).initial 0x3000 0x4000, []⟩
      [.malloc [0, 0, 0, 7] noMemory, .init (.buff 0) [0, 0, 0, 7] noMemory,
        .malloc [0, 0, 0, 7] noMemory, .free 1] := by
  have hfree : ¬Always step (fun t ↦ 0 < outstanding t.live 127 → ¬t.pool.InFree 127)
      ⟨(gCharHeader 0x1000 0x2000).initial 0x3000 0x4000, []⟩
      [.malloc [0, 0, 0, 7] noMemory, .init (.buff 0) [0, 0, 0, 7] noMemory,
        .malloc [0, 0, 0, 7] noMemory, .free 1] := by decide +kernel
  have hfreeNow : ¬Always step (fun t ↦ 0 < outstandingNow t 127 → ¬t.pool.InFree 127)
      ⟨(gCharHeader 0x1000 0x2000).initial 0x3000 0x4000, []⟩
      [.malloc [0, 0, 0, 7] noMemory, .init (.buff 0) [0, 0, 0, 7] noMemory,
        .malloc [0, 0, 0, 7] noMemory, .free 1] := by decide +kernel
  exact ⟨started_initial _ _ _, fun h ↦ hfree (h.mono fun _ ht ↦ ht.not_inFree 127),
    fun h ↦ hfreeNow (h.mono fun _ ht ↦ ht.not_inFree 127)⟩

theorem refCounted_of_refSafe_char :
    Always step (fun t ↦ RefCounted t.pool (outstanding t.live))
      ⟨(gCharHeader 0x1000 0x2000).initial 0x3000 0x4000, []⟩
      [.malloc [0, 0, 0, 1] noMemory, .init (.buff 0) [0, 0, 0, 1] noMemory,
        .malloc [0, 0, 0, 1] noMemory, .malloc [0, 0, 0, 2] noMemory,
        .malloc [0, 0, 0, 3] noMemory, .malloc [0, 0, 0, 4] noMemory, .free 0] :=
  (refCounted_of_refSafe (started_initial (gCharHeader 0x1000 0x2000) 0x3000 0x4000)
    (by decide +kernel)).1

end Cocool.Mmp
