import Cocool.Lib.Runs
import Cocool.Mmp.Pool
import Mathlib.Tactic.Common

/-!
# What each pool operation does

Each loop of the pool is given in closed form and each entry point gets one
case lemma.  Later modules reason from these and leave the definitions
folded.
-/

namespace Cocool.Mmp

namespace Pool

/-- The slot named by `proot[j]` after `m` turns of the expansion loop. The
window `imemFree, …, imemFree + m - 1` holds the new slots, and the used
slots it held before have moved to the end of the array, cyclically when
fewer than `m` were in use. -/
def grownIdx (s : Pool) (m j : ℕ) : ℕ :=
  if j < s.imemFree then (s.headers j).iheapIdx
  else if j < s.imemFree + m then s.imemSize + (j - s.imemFree)
  else if j < s.imemSize then (s.headers j).iheapIdx
  else if j < s.imemSize + m then
    (s.headers (s.imemFree + (j - s.imemSize) % (s.imemSize - s.imemFree))).iheapIdx
  else (s.headers j).iheapIdx

def grow (s : Pool) (m : ℕ) : Pool :=
  { s with
    headers := fun j ↦ { s.headers j with iheapIdx := s.grownIdx m j }
    imemSize := s.imemSize + m
    imemFree := s.imemFree + m
    imemUsed := s.imemUsed - m }

def refill (s : Pool) (m : ℕ) : Pool :=
  { s with
    imemFree := s.imemFree - m
    imemUsed := s.imemUsed + m
    buff := fun k ↦
      if k < m then
        { s.headers (s.imemFree - 1 - k) with
          privData := s.pmemData + s.imemLen * (s.headers (s.imemFree - 1 - k)).iheapIdx }
      else s.buff k }

def expanded (s : Pool) (env : Env) (a b : Addr) : Pool :=
  grow { (s.reallocRoot env a).reallocData env b with imemUsed := s.imemUsed + 16 } 16

def freed (s : Pool) (p : HeaderPtr) (e : CocolTypeHeader) : Pool :=
  { (s.writeIdx (.proot s.proot s.imemFree) e.iheapIdx).writeIdx p
      (s.headers s.imemFree).iheapIdx with
    imemFree := s.imemFree + 1
    imemUsed := s.imemUsed - 1 }

def released (s : Pool) : Pool :=
  { s with imemFree := s.imemFree + 1, imemUsed := s.imemUsed - 1 }

/-- The first position from `imemFree` on whose slot holds the bytes `v`. -/
def lookup (s : Pool) (v : List UInt8) : Option ℕ :=
  (List.range' s.imemFree (s.imemSize - s.imemFree)).find?
    fun i ↦ s.slotBytes (s.headers i).iheapIdx = v

theorem lookup_eq_some {s : Pool} {v : List UInt8} {i : ℕ} (h : s.lookup v = some i) :
    s.imemFree ≤ i ∧ i < s.imemSize ∧ s.slotBytes (s.headers i).iheapIdx = v := by
  have hmem := List.mem_of_find?_eq_some h
  have hval := List.find?_some h
  rw [List.mem_range'_1] at hmem
  refine ⟨hmem.1, by omega, by simpa using hval⟩

theorem lookup_eq_none {s : Pool} {v : List UInt8} (h : s.lookup v = none) {i : ℕ}
    (hi : s.imemFree ≤ i) (hi' : i < s.imemSize) :
    s.slotBytes (s.headers i).iheapIdx ≠ v := by
  have hmem : i ∈ List.range' s.imemFree (s.imemSize - s.imemFree) := by
    rw [List.mem_range'_1]
    omega
  simpa using List.find?_eq_none.mp h i hmem

end Pool

/-! ## Expansion -/

theorem expandElem_eq {s : Pool} (hf : s.imemFree ≤ s.imemSize)
    (hcap : s.imemSize < s.headerCap) :
    expandElem s = .ok { s with
      headers := fun j ↦ { s.headers j with
        iheapIdx := if j = s.imemFree then s.imemSize
          else if j = s.imemSize then (s.headers s.imemFree).iheapIdx
          else (s.headers j).iheapIdx }
      imemSize := s.imemSize + 1
      imemFree := s.imemFree + 1
      imemUsed := s.imemUsed - 1 } := by
  have hcap' : s.imemFree < s.headerCap := hf.trans_lt hcap
  simp only [expandElem, if_pos hcap, mmPoolFreeElem, mmPoolShitDown, Pool.writeIdx, Pool.deref,
    if_pos hcap', Except.map, true_and, Function.update_self]
  congr 2
  funext j
  by_cases hjf : j = s.imemFree <;> by_cases hjn : j = s.imemSize <;>
    by_cases hfn : s.imemFree = s.imemSize <;> simp_all [Function.update_apply]

namespace Pool

theorem grow_zero (s : Pool) : s.grow 0 = s := by
  have hidx : ∀ j, s.grownIdx 0 j = (s.headers j).iheapIdx := by
    intro j
    unfold grownIdx
    split_ifs <;> first | rfl | omega
  simp [grow, hidx]

theorem grownIdx_succ (s : Pool) (m j : ℕ) (hf : s.imemFree ≤ s.imemSize) :
    s.grownIdx (m + 1) j = if j = s.imemFree + m then s.imemSize + m
      else if j = s.imemSize + m then s.grownIdx m (s.imemFree + m) else s.grownIdx m j := by
  by_cases hjf : j = s.imemFree + m
  · subst hjf
    simp [grownIdx]
  rw [if_neg hjf]
  by_cases hjn : j = s.imemSize + m
  · subst hjn
    have hlt : s.imemFree < s.imemSize := by omega
    have hmod : m % (s.imemSize - s.imemFree) = if s.imemFree + m < s.imemSize then m
        else (s.imemFree + m - s.imemSize) % (s.imemSize - s.imemFree) := by
      split_ifs with hm
      · apply Nat.mod_eq_of_lt
        omega
      · rw [Nat.mod_eq_sub_mod (by omega)]
        congr 1
        omega
    simp only [grownIdx, ↓reduceIte, Nat.add_sub_cancel_left, hmod]
    split_ifs <;> first | rfl | omega
  · rw [if_neg hjn]
    unfold grownIdx
    split_ifs <;> first | rfl | omega

end Pool

/-- The loop of `mm_pool_expand` in closed form. -/
theorem expandLoop_eq {s : Pool} {m : ℕ} (hf : s.imemFree ≤ s.imemSize)
    (hcap : s.imemSize + m ≤ s.headerCap) : expandLoop m s = .ok (s.grow m) := by
  induction m with
  | zero => rw [s.grow_zero]; rfl
  | succ m ih =>
      have hstep : expandElem (s.grow m) = .ok (s.grow (m + 1)) := by
        rw [expandElem_eq (by simpa [Pool.grow] using hf)
          (show s.imemSize + m < s.headerCap by omega)]
        simp only [Pool.grow, s.grownIdx_succ m _ hf]
        congr 2
        omega
      rw [expandLoop, ih (by omega), Except.bind, hstep]

theorem mmPoolExpand_eq {s : Pool} {env : Env} {a b : Addr} (hf : s.imemFree ≤ s.imemSize)
    (ha : env.reallocRoot = some a) (hb : env.reallocData = some b) :
    mmPoolExpand s env = .ok (true, s.expanded env a b) := by
  simp only [mmPoolExpand, ha, hb]
  rw [expandLoop_eq (by simpa [Pool.reallocData, Pool.reallocRoot, Pool.logged] using hf)
    (by simp [Pool.reallocData, Pool.reallocRoot, Pool.logged])]
  rfl

/-! ## Refill -/

theorem refillLoop_eq {s : Pool} {m : ℕ} (hm : m ≤ 4) (hf : m ≤ s.imemFree)
    (hcap : s.imemFree ≤ s.headerCap) : refillLoop m s = .ok (s.refill m) := by
  induction m with
  | zero => simp [refillLoop, Pool.refill]
  | succ m ih =>
      have hcond : 0 < (s.refill m).imemFree ∧
          (s.refill m).imemFree - 1 < (s.refill m).headerCap ∧ m < mmPoolBuff := by
        simp only [Pool.refill, mmPoolBuff]
        omega
      have hpos : s.imemFree - m - 1 = s.imemFree - 1 - m := by omega
      rw [refillLoop, ih (by omega) (by omega), Except.bind, refillElem, if_pos hcond]
      simp only [Pool.refill, hpos]
      congr 2
      · omega
      · omega
      · funext k
        by_cases hk : k = m
        · subst hk
          simp
        · have hiff : k < m + 1 ↔ k < m := by omega
          simp [hk, hiff]

theorem refillLoop_cap {s t : Pool} (h : refillLoop 4 s = .ok t) : s.imemFree ≤ s.headerCap := by
  by_contra hcap
  have hfirst : refillElem 0 s = .error .index := by
    rw [refillElem, if_neg (by omega)]
  simp [refillLoop, Except.bind, hfirst] at h

/-! ## Lookup -/

theorem checkLoop_ok {s : Pool} {v : List UInt8} {n i : ℕ} {r : Option ℕ}
    (h : checkLoop s v n i = .ok r) :
    r = (List.range' i n).find? fun j ↦ s.slotBytes (s.headers j).iheapIdx = v := by
  induction n generalizing i with
  | zero => simpa [checkLoop] using h.symm
  | succ n ih =>
      simp only [checkLoop] at h
      rw [List.range'_succ, List.find?_cons]
      split_ifs at h with hcap hlen hv
      · simpa [hv] using h.symm
      · simpa [hv] using ih h

theorem checkLoop_range {s : Pool} {v : List UInt8} {n i j : ℕ}
    (h : checkLoop s v n i = .ok (some j)) :
    s.imemLen * (s.headers j).iheapIdx + s.imemLen ≤ s.dataCap := by
  induction n generalizing i with
  | zero => simp [checkLoop] at h
  | succ n ih =>
      simp only [checkLoop] at h
      split_ifs at h with hcap hlen hv
      · obtain rfl : i = j := by simpa using h
        exact hlen
      · exact ih h

theorem checkLoop_total {s : Pool} (v : List UInt8) {n i : ℕ}
    (h : ∀ j, i ≤ j → j < i + n →
      j < s.headerCap ∧ s.imemLen * (s.headers j).iheapIdx + s.imemLen ≤ s.dataCap) :
    ∃ r, checkLoop s v n i = .ok r := by
  induction n generalizing i with
  | zero => exact ⟨none, rfl⟩
  | succ n ih =>
      obtain ⟨hcap, hlen⟩ := h i le_rfl (by omega)
      simp only [checkLoop, if_pos hcap, if_pos hlen]
      split_ifs with hv
      · exact ⟨some i, rfl⟩
      · exact ih fun j hj hj' ↦ h j (by omega) (by omega)

theorem mmPoolCheckElem_ok {s t : Pool} {v : List UInt8} {r : Option HeaderPtr}
    (h : mmPoolCheckElem s v = .ok (r, t)) :
    (s.lookup v = none ∧ r = none ∧ t = s) ∨
      ∃ i, s.lookup v = some i ∧
        s.imemLen * (s.headers i).iheapIdx + s.imemLen ≤ s.dataCap ∧
        r = some (.proot s.proot i) ∧ t = s.bumpRef i := by
  cases hc : checkLoop s v (s.imemSize - s.imemFree) s.imemFree with
  | error e => simp [mmPoolCheckElem, hc] at h
  | ok o =>
      have ho : o = s.lookup v := checkLoop_ok hc
      cases o with
      | none =>
          simp only [mmPoolCheckElem, hc, Except.ok.injEq, Prod.mk.injEq] at h
          exact .inl ⟨ho.symm, h.1.symm, h.2.symm⟩
      | some i =>
          simp only [mmPoolCheckElem, hc, Except.ok.injEq, Prod.mk.injEq] at h
          exact .inr ⟨i, ho.symm, checkLoop_range hc, h.1.symm, h.2.symm⟩

/-! ## The entry points -/

structure Pool.Shape (s : Pool) : Prop where
  init : s.binitialized = true
  size : 4 ≤ s.imemSize
  cap : s.imemSize ≤ s.headerCap
  dataCap : s.dataCap = s.imemSize * s.imemLen
  mask : s.buffMask ≤ 4
  len_pos : 0 < s.imemLen

/-- The six ways a call of `cocol_X_malloc` can go, with what it returns
and the pool it leaves. -/
inductive MallocCase (s : Pool) (v : List UInt8) (env : Env) : Option HeaderPtr → Pool → Prop
  | hit (i : ℕ) (h : s.lookup v = some i)
      (hlen : s.imemLen * (s.headers i).iheapIdx + s.imemLen ≤ s.dataCap) :
      MallocCase s v env (some (.proot s.proot i)) (s.bumpRef i)
  | take (h : s.lookup v = none) (hm : s.buffMask < 4) :
      MallocCase s v env (some (.buff s.buffMask)) { s with buffMask := s.buffMask + 1 }
  | refill (h : s.lookup v = none) (hm : s.buffMask = 4) (hf : 4 ≤ s.imemFree)
      (hcap : s.imemFree ≤ s.headerCap) :
      MallocCase s v env (some (.buff 0)) { s.refill 4 with buffMask := 1 }
  | grow (h : s.lookup v = none) (hm : s.buffMask = 4) (hf : s.imemFree < 4) (a b : Addr)
      (ha : env.reallocRoot = some a) (hb : env.reallocData = some b) :
      MallocCase s v env (some (.buff 0))
        { (s.expanded env a b).refill 4 with buffMask := 1 }
  | noRoot (h : s.lookup v = none) (hm : s.buffMask = 4) (hf : s.imemFree < 4)
      (ha : env.reallocRoot = none) : MallocCase s v env none s
  | noData (h : s.lookup v = none) (hm : s.buffMask = 4) (hf : s.imemFree < 4) (a : Addr)
      (ha : env.reallocRoot = some a) (hb : env.reallocData = none) :
      MallocCase s v env none (s.reallocRoot env a)

theorem Pool.deref_take {s : Pool} {e : CocolTypeHeader} (hm : s.buffMask < 4)
    (he : ({ s with buffMask := s.buffMask + 1 } : Pool).deref (.buff s.buffMask) = some e) :
    s.buff s.buffMask = e := by
  simpa [deref, mmPoolBuff, hm] using he

theorem Pool.deref_refill {s : Pool} {e : CocolTypeHeader}
    (he : ({ s.refill 4 with buffMask := 1 } : Pool).deref (.buff 0) = some e) :
    (s.refill 4).buff 0 = e := by
  simpa [deref, mmPoolBuff] using he

theorem Pool.four_le_expanded (s : Pool) (env : Env) (a b : Addr) :
    4 ≤ (s.expanded env a b).imemFree := by
  simp only [expanded, grow]
  omega

theorem mmPoolGetFree_refill {s t : Pool} {env : Env} {ok : Bool} (hf : 4 ≤ s.imemFree)
    (h : mmPoolGetFree s env = .ok (ok, t)) :
    s.imemFree ≤ s.headerCap ∧ ok = true ∧ t = s.refill 4 := by
  rw [mmPoolGetFree, mmPoolBuff, if_neg (by omega)] at h
  obtain ⟨u, hu, heq⟩ := Lib.map_eq_ok_iff.mp h
  have hcap := refillLoop_cap hu
  rw [refillLoop_eq le_rfl hf hcap] at hu
  simp only [Prod.mk.injEq] at heq
  exact ⟨hcap, heq.1.symm, by rw [← heq.2, ← Except.ok.inj hu]⟩

theorem expanded_refillLoop {s : Pool} {env : Env} {a b : Addr} (hf : s.imemFree ≤ s.imemSize) :
    refillLoop 4 (s.expanded env a b) = .ok ((s.expanded env a b).refill 4) := by
  refine refillLoop_eq le_rfl ?_ ?_
  · simp [Pool.expanded, Pool.grow, Pool.reallocData, Pool.reallocRoot, Pool.logged]
  · simpa [Pool.expanded, Pool.grow, Pool.reallocData, Pool.reallocRoot, Pool.logged,
      mmPoolExpandNum] using hf

theorem mallocCase_of_miss {s t : Pool} {v : List UInt8} {env : Env} {r : Option HeaderPtr}
    (hs : s.Shape) (hmiss : s.lookup v = none) (h : mmPoolGetFreeElem s env = .ok (r, t)) :
    MallocCase s v env r t := by
  unfold mmPoolGetFreeElem at h
  by_cases hm : s.buffMask = 4
  · rw [mmPoolBuff, if_pos hm] at h
    by_cases hf : s.imemFree < 4
    · have hfn : s.imemFree ≤ s.imemSize := by
        have hsize := hs.size
        omega
      rw [mmPoolGetFree, mmPoolBuff, if_pos hf] at h
      cases ha : env.reallocRoot with
      | none =>
          simp only [mmPoolExpand, ha, Except.ok.injEq, Prod.mk.injEq] at h
          obtain ⟨rfl, rfl⟩ := h
          exact .noRoot hmiss hm hf ha
      | some a =>
          cases hb : env.reallocData with
          | none =>
              simp only [mmPoolExpand, ha, hb, Except.ok.injEq, Prod.mk.injEq] at h
              obtain ⟨rfl, rfl⟩ := h
              exact .noData hmiss hm hf a ha hb
          | some b =>
              simp only [mmPoolExpand_eq hfn ha hb, expanded_refillLoop hfn, Except.map,
                Except.ok.injEq, Prod.mk.injEq] at h
              obtain ⟨rfl, rfl⟩ := h
              exact .grow hmiss hm hf a b ha hb
    · cases hg : mmPoolGetFree s env with
      | error e => simp [hg] at h
      | ok p =>
          obtain ⟨ok, u⟩ := p
          obtain ⟨hcap, rfl, rfl⟩ := mmPoolGetFree_refill (by omega) hg
          simp only [hg, Except.ok.injEq, Prod.mk.injEq] at h
          obtain ⟨rfl, rfl⟩ := h
          apply MallocCase.refill hmiss hm ?_ hcap
          omega
  · have hlt : s.buffMask < 4 := lt_of_le_of_ne hs.mask hm
    rw [mmPoolBuff, if_neg hm, if_pos hlt] at h
    simp only [Except.ok.injEq, Prod.mk.injEq] at h
    obtain ⟨rfl, rfl⟩ := h
    exact .take hmiss hlt

theorem mallocCase {s t : Pool} {v : List UInt8} {env : Env} {r : Option HeaderPtr}
    (hs : s.Shape) (h : cocolFuncMalloc s v env = .ok (r, t)) : MallocCase s v env r t := by
  simp only [cocolFuncMalloc, ensureInit, hs.init, ↓reduceIte, Except.bind, mmPoolGetElem] at h
  cases hc : mmPoolCheckElem s v with
  | error e => simp [hc] at h
  | ok p =>
      obtain ⟨q, u⟩ := p
      rcases mmPoolCheckElem_ok hc with ⟨hmiss, rfl, rfl⟩ | ⟨i, hi, hlen, rfl, rfl⟩
      · simp only [hc] at h
        exact mallocCase_of_miss hs hmiss h
      · simp only [hc, Except.ok.injEq, Prod.mk.injEq] at h
        obtain ⟨rfl, rfl⟩ := h
        exact .hit i hi hlen

theorem mmPoolFreeElem_ok {s t : Pool} {p : HeaderPtr} (h : mmPoolFreeElem s p = .ok t) :
    s.imemFree < s.headerCap ∧ ∃ e, s.deref p = some e ∧ t = s.freed p e := by
  obtain ⟨u, hu, rfl⟩ := Lib.map_eq_ok_iff.mp h
  simp only [mmPoolShitDown] at hu
  have hderef : ({ s with imemFree := s.imemFree + 1 } : Pool).deref p = s.deref p := by
    cases p <;> rfl
  rw [hderef] at hu
  split_ifs at hu with hcap
  cases he : s.deref p with
  | none => simp [he] at hu
  | some e =>
      simp only [he, Except.ok.injEq] at hu
      refine ⟨hcap, e, rfl, ?_⟩
      subst hu
      cases p <;> rfl

namespace Pool

theorem deref_released (s : Pool) (p : HeaderPtr) : s.released.deref p = s.deref p := by
  cases p <;> rfl

/-- Freeing the header that already sits at the boundary swaps an index
with itself: only the counters move. -/
theorem freed_of_eq {s : Pool} {p : HeaderPtr} {e : CocolTypeHeader} (he : s.deref p = some e)
    (hidx : e.iheapIdx = (s.headers s.imemFree).iheapIdx) :
    s.freed p e = s.released := by
  have hself : Function.update s.headers s.imemFree
      { s.headers s.imemFree with iheapIdx := e.iheapIdx } = s.headers := by
    rw [hidx]
    exact Function.update_eq_self _ _
  cases p with
  | buff k =>
      obtain ⟨-, rfl⟩ : k < mmPoolBuff ∧ s.buff k = e := by simpa [deref] using he
      simp only [freed, writeIdx, hself, ← hidx]
      congr 1
      exact Function.update_eq_self _ _
  | proot base i =>
      obtain ⟨-, rfl⟩ : (base = s.proot ∧ i < s.headerCap) ∧ s.headers i = e := by
        simpa [deref] using he
      simp only [freed, writeIdx, hself, ← hidx]
      congr 1
      exact Function.update_eq_self _ _
  | client c =>
      obtain ⟨-, rfl⟩ : c < s.clientNum ∧ s.client c = e := by simpa [deref] using he
      simp only [freed, writeIdx, hself, ← hidx]
      congr 1
      exact Function.update_eq_self _ _

theorem freed_proot_idx {s : Pool} {base : Addr} {i : ℕ} {e : CocolTypeHeader}
    (he : s.deref (.proot base i) = some e) (j : ℕ) :
    ((s.freed (.proot base i) e).headers j).iheapIdx =
      if j = i then (s.headers s.imemFree).iheapIdx
      else if j = s.imemFree then (s.headers i).iheapIdx else (s.headers j).iheapIdx := by
  obtain ⟨-, rfl⟩ : (base = s.proot ∧ i < s.headerCap) ∧ s.headers i = e := by
    simpa [deref] using he
  simp only [freed, writeIdx, Function.update_apply]
  split_ifs <;> simp_all

theorem freed_other_idx {s : Pool} {p : HeaderPtr} {e : CocolTypeHeader}
    (hp : ∀ base i, p ≠ .proot base i) (j : ℕ) :
    ((s.freed p e).headers j).iheapIdx =
      if j = s.imemFree then e.iheapIdx else (s.headers j).iheapIdx := by
  cases p with
  | proot base i => exact absurd rfl (hp base i)
  | buff k => by_cases hjf : j = s.imemFree <;> simp [freed, writeIdx, hjf]
  | client c => by_cases hjf : j = s.imemFree <;> simp [freed, writeIdx, hjf]

end Pool

/-! ## Calls that cannot fault -/

theorem mmPoolGetFreeElem_total {s : Pool} (env : Env) (hs : s.Shape)
    (hf : s.imemFree ≤ s.headerCap) : ∃ r t, mmPoolGetFreeElem s env = .ok (r, t) := by
  unfold mmPoolGetFreeElem
  by_cases hm : s.buffMask = 4
  · rw [mmPoolBuff, if_pos hm]
    by_cases hlow : s.imemFree < 4
    · have hfn : s.imemFree ≤ s.imemSize := by
        have hsize := hs.size
        omega
      rw [mmPoolGetFree, mmPoolBuff, if_pos hlow]
      cases ha : env.reallocRoot with
      | none => exact ⟨none, s, by simp [mmPoolExpand, ha]⟩
      | some a =>
          cases hb : env.reallocData with
          | none => exact ⟨none, s.reallocRoot env a, by simp [mmPoolExpand, ha, hb]⟩
          | some b =>
              refine ⟨some (.buff 0), { (s.expanded env a b).refill 4 with buffMask := 1 }, ?_⟩
              simp only [mmPoolExpand_eq hfn ha hb, expanded_refillLoop hfn, Except.map]
    · refine ⟨some (.buff 0), { s.refill 4 with buffMask := 1 }, ?_⟩
      simp only [mmPoolGetFree, mmPoolBuff, if_neg hlow,
        refillLoop_eq le_rfl (Nat.not_lt.mp hlow) hf, Except.map]
  · have hlt : s.buffMask < 4 := lt_of_le_of_ne hs.mask hm
    rw [mmPoolBuff, if_neg hm, if_pos hlt]
    exact ⟨_, _, rfl⟩

theorem checkLoop_ne_index {s : Pool} (v : List UInt8) {n i : ℕ} (h : i + n ≤ s.headerCap) :
    checkLoop s v n i ≠ .error .index := by
  induction n generalizing i with
  | zero => simp [checkLoop]
  | succ n ih =>
      simp only [checkLoop, if_pos (show i < s.headerCap by omega)]
      split_ifs with hlen hv
      · simp
      · apply ih
        omega
      · simp

theorem cocolFuncMalloc_ne_index {s : Pool} (v : List UInt8) (env : Env) (hs : s.Shape)
    (hf : s.imemFree ≤ s.imemSize) : cocolFuncMalloc s v env ≠ .error .index := by
  have hcap := hs.cap
  simp only [cocolFuncMalloc, ensureInit, hs.init, ↓reduceIte, Except.bind, mmPoolGetElem]
  cases hc : checkLoop s v (s.imemSize - s.imemFree) s.imemFree with
  | error e =>
      have hne : e ≠ .index := by
        rintro rfl
        apply checkLoop_ne_index v ?_ hc
        omega
      simpa [mmPoolCheckElem, hc] using hne
  | ok o =>
      cases o with
      | some i => simp [mmPoolCheckElem, hc]
      | none =>
          obtain ⟨r, t, hrt⟩ := mmPoolGetFreeElem_total env hs (hf.trans hcap)
          simp [mmPoolCheckElem, hc, hrt]

theorem cocolFuncMalloc_total {s : Pool} (v : List UInt8) (env : Env) (hs : s.Shape)
    (hf : s.imemFree ≤ s.imemSize)
    (hidx : ∀ i, i < s.imemSize → (s.headers i).iheapIdx < s.imemSize) :
    ∃ r t, cocolFuncMalloc s v env = .ok (r, t) := by
  have hcap := hs.cap
  have hlen : ∀ j, s.imemFree ≤ j → j < s.imemFree + (s.imemSize - s.imemFree) →
      j < s.headerCap ∧ s.imemLen * (s.headers j).iheapIdx + s.imemLen ≤ s.dataCap := by
    intro j _ hj
    refine ⟨by omega, ?_⟩
    rw [hs.dataCap, Nat.mul_comm s.imemSize]
    exact Nat.mul_le_mul_left s.imemLen (hidx j (by omega))
  obtain ⟨o, ho⟩ := checkLoop_total v hlen
  simp only [cocolFuncMalloc, ensureInit, hs.init, ↓reduceIte, Except.bind, mmPoolGetElem]
  cases o with
  | some i => exact ⟨some (.proot s.proot i), s.bumpRef i, by simp [mmPoolCheckElem, ho]⟩
  | none =>
      obtain ⟨r, t, hrt⟩ := mmPoolGetFreeElem_total env hs (hf.trans hcap)
      exact ⟨r, t, by simp [mmPoolCheckElem, ho, hrt]⟩

/-! ## The pool that `mm_pool_init` makes -/

theorem le_mmPoolRoundup {a : ℕ} (h : 0 < a) : 4 ≤ mmPoolRoundup a 4 := by
  unfold mmPoolRoundup
  omega

/-- The pool of a declaration once its blocks were obtained at `a` and `b`:
every slot is free but the four held back in `buff`. -/
def PoolDecl.initial (d : PoolDecl) (a b : Addr) : Pool :=
  Pool.refill
    { d.pool with
      proot := a
      headers := fun i ↦ ⟨d.pdataType, b + mmPoolRoundup d.imemLen 4 * i, 0, i⟩
      headerCap := mmPoolRoundup d.imemSize 4
      pmemData := b
      dataCap := mmPoolRoundup d.imemSize 4 * mmPoolRoundup d.imemLen 4
      imemSize := mmPoolRoundup d.imemSize 4
      imemFree := mmPoolRoundup d.imemSize 4
      imemLen := mmPoolRoundup d.imemLen 4
      binitialized := true
      heapCalls := [.malloc a, .malloc b] } 4

theorem mmPoolInit_eq {d : PoolDecl} {env : Env} {a b : Addr}
    (ha : env.mallocRoot = some a) (hb : env.mallocData = some b) :
    mmPoolInit d.pool env = .ok (true, d.initial a b) := by
  have hsize := le_mmPoolRoundup d.size_pos
  have hnot : ¬mmPoolRoundup d.imemSize 4 < 4 := Nat.not_lt.mpr hsize
  simp only [mmPoolInit, ha, hb, PoolDecl.pool, Bool.false_eq_true, ↓reduceIte,
    mmPoolInitFreeElem, mmPoolGetFree, Pool.logged, mmPoolBuff, hnot]
  rw [refillLoop_eq le_rfl hsize le_rfl]
  rfl

theorem mmPoolInit_ok {d : PoolDecl} {env : Env} {s : Pool}
    (h : mmPoolInit d.pool env = .ok (true, s)) : ∃ a b, s = d.initial a b := by
  cases ha : env.mallocRoot with
  | none => simp [mmPoolInit, PoolDecl.pool, ha] at h
  | some a =>
      cases hb : env.mallocData with
      | none => simp [mmPoolInit, PoolDecl.pool, ha, hb] at h
      | some b =>
          rw [mmPoolInit_eq ha hb] at h
          simp only [Except.ok.injEq, Prod.mk.injEq, true_and] at h
          exact ⟨a, b, h.symm⟩

theorem PoolDecl.initial_shape (d : PoolDecl) (a b : Addr) : (d.initial a b).Shape where
  init := rfl
  size := le_mmPoolRoundup d.size_pos
  cap := le_rfl
  dataCap := rfl
  mask := Nat.zero_le 4
  len_pos := lt_of_lt_of_le (by decide) (le_mmPoolRoundup d.len_pos)

end Cocool.Mmp
