import Cocool.Mmp.Partition

/-!
# Refills and expansions taken one by one

A refill moves four slots out of the free region and an expansion moves
sixteen new ones into it.  The used window is untouched by an expansion and
only grows by what is refilled, so along a run of `mm_pool_get_free` it is
what it was at the start together with everything taken since.
-/

namespace Cocool.Mmp

open Lib

/-- The pool states of which the refill is asked to be exact. -/
structure PoolCounts (s : Pool) : Prop where
  perm : ((List.range s.imemSize).map s.slotAt).Perm (List.range s.imemSize)
  free_le : s.imemFree ≤ s.imemSize
  used_eq : s.imemUsed = s.imemSize - s.imemFree
  cap : s.imemSize ≤ s.headerCap

/-- What an expansion from `s` to `u` adds. -/
structure Grown (s u : Pool) : Prop where
  size : u.imemSize = s.imemSize + mmPoolExpandNum
  free : u.imemFree = s.imemFree + mmPoolExpandNum
  added : ∀ k, u.InFree k ↔
    s.InFree k ∨ (s.imemSize ≤ k ∧ k < s.imemSize + mmPoolExpandNum)
  used : ∀ k, u.Used k ↔ s.Used k

/-- What the refill loop from `u` to `t` takes. -/
structure Taken (u t : Pool) : Prop where
  size : t.imemSize = u.imemSize
  distinct : ((List.range mmPoolBuff).map fun j ↦ (t.buff j).iheapIdx).Nodup
  was_free : ∀ j, j < mmPoolBuff → u.InFree (t.buff j).iheapIdx
  not_used : ∀ j, j < mmPoolBuff → ¬u.Used (t.buff j).iheapIdx
  leaves : ∀ k, (u.InFree k ∧ ¬t.InFree k) ↔ ∃ j < mmPoolBuff, (t.buff j).iheapIdx = k
  stays : ∀ k, t.InFree k → u.InFree k
  used : ∀ k, t.Used k ↔ u.Used k ∨ ∃ j < mmPoolBuff, (t.buff j).iheapIdx = k
  loop : ∀ m, m ≤ mmPoolBuff → ∃ w, refillLoop m u = .ok w ∧ w.imemFree + m = u.imemFree

/-- A successful `mm_pool_get_free` expands only below four free slots, and
what it takes comes from the free region it then has. -/
def RefillExact (s : Pool) (env : Env) (t : Pool) : Prop :=
  ∃ u, ((s.imemFree < mmPoolBuff ∧ mmPoolExpand s env = .ok (true, u) ∧ Grown s u) ∨
    (mmPoolBuff ≤ s.imemFree ∧ u = s)) ∧ Taken u t

section Step

variable {s t u : Pool} {env : Env} {a b : Addr}

theorem PoolCounts.arranged (hs : PoolCounts s) : Arranged s.slotAt s.imemSize :=
  arranged_iff_perm.mpr hs.perm

theorem Pool.inFree_expanded (hcap : s.imemSize ≤ s.headerCap) (hf : s.imemFree ≤ s.imemSize)
    (env : Env) (a b : Addr) (k : ℕ) :
    (s.expanded env a b).InFree k ↔
      s.InFree k ∨ (s.imemSize ≤ k ∧ k < s.imemSize + 16) := by
  have hfree : (s.expanded env a b).imemFree = s.imemFree + 16 := rfl
  constructor
  · rintro ⟨i, hi, rfl⟩
    rw [hfree] at hi
    rw [Pool.slotAt_expanded hcap hf env a b (by omega)]
    by_cases hlow : i < s.imemFree
    · rw [if_pos hlow]
      exact .inl ⟨i, hlow, rfl⟩
    · rw [if_neg hlow, if_pos hi]
      right
      omega
  · rintro (⟨i, hi, rfl⟩ | ⟨hlow, hhigh⟩)
    · refine ⟨i, by omega, ?_⟩
      rw [Pool.slotAt_expanded hcap hf env a b (by omega), if_pos hi]
    · refine ⟨s.imemFree + (k - s.imemSize), by omega, ?_⟩
      rw [Pool.slotAt_expanded hcap hf env a b (by omega), if_neg (by omega), if_pos (by omega)]
      omega

theorem PoolCounts.grown (hs : PoolCounts s) (env : Env) (a b : Addr) :
    Grown s (s.expanded env a b) where
  size := rfl
  free := rfl
  added := Pool.inFree_expanded hs.cap hs.free_le env a b
  used := Pool.used_expanded hs.cap hs.free_le env a b

theorem PoolCounts.expanded (hs : PoolCounts s) (env : Env) (a b : Addr) :
    PoolCounts (s.expanded env a b) := by
  have hle := hs.free_le
  have hused := hs.used_eq
  refine ⟨arranged_iff_perm.mp ?_, ?_, ?_, le_rfl⟩
  · -- the old positions of the larger block are named as before
    have hmoved : Arranged ({ (s.reallocRoot env a).reallocData env b with
        imemUsed := s.imemUsed + 16 } : Pool).slotAt s.imemSize := by
      have hslot : ∀ i < s.imemSize,
          ((s.reallocRoot env a).reallocData env b).slotAt i = s.slotAt i := by
        intro i hi
        have hcap := hs.cap
        simp [Pool.slotAt, Pool.reallocData, Pool.reallocRoot, Pool.logged,
          show i < s.headerCap by omega]
      refine ⟨fun i hi ↦ ?_, fun i j hi hj hij ↦ ?_⟩
      · exact (hslot i hi).trans_lt (hs.arranged.lt i hi)
      · apply hs.arranged.inj i j hi hj
        rw [← hslot i hi, ← hslot j hj]
        exact hij
    exact Pool.arranged_grown (s := { (s.reallocRoot env a).reallocData env b with
      imemUsed := s.imemUsed + 16 }) hle hmoved 16
  · exact Nat.add_le_add_right hle 16
  · simp only [Pool.expanded, Pool.grow, Pool.reallocData, Pool.reallocRoot, Pool.logged]
    push_cast
    omega

theorem PoolCounts.refill (hs : PoolCounts s) (hf : 4 ≤ s.imemFree) : PoolCounts (s.refill 4) := by
  have hle := hs.free_le
  have hused := hs.used_eq
  refine ⟨hs.perm, (Nat.sub_le _ _).trans hle, ?_, hs.cap⟩
  simp only [Pool.refill]
  omega

theorem PoolCounts.taken (hs : PoolCounts s) (hf : 4 ≤ s.imemFree) : Taken s (s.refill 4) := by
  have hle := hs.free_le
  have hused := s.used_iff_not_inFree hle hs.arranged
  have hbuff : ∀ j, j < 4 → ((s.refill 4).buff j).iheapIdx = s.slotAt (s.imemFree - 1 - j) :=
    fun j hj ↦ Pool.buff_refill hj
  have hwas : ∀ j, j < 4 → s.InFree ((s.refill 4).buff j).iheapIdx :=
    fun j hj ↦ ⟨s.imemFree - 1 - j, by omega, (hbuff j hj).symm⟩
  refine ⟨rfl, ?_, hwas, ?_, ?_, ?_, ?_, ?_⟩
  · apply List.Nodup.map_on _ List.nodup_range
    intro i hi j hj hij
    rw [List.mem_range] at hi hj
    rw [hbuff i hi, hbuff j hj] at hij
    have hpos := hs.arranged.inj _ _ (by omega) (by omega) hij
    simp only [mmPoolBuff] at hi hj
    omega
  · intro j hj hk
    exact ((hused _).mp hk).2 (hwas j hj)
  · intro k
    constructor
    · rintro ⟨⟨i, hi, rfl⟩, hnot⟩
      have hlow : s.imemFree - 4 ≤ i := by
        by_contra hlt
        exact hnot ⟨i, Nat.not_le.mp hlt, rfl⟩
      refine ⟨s.imemFree - 1 - i, by simp only [mmPoolBuff]; omega, ?_⟩
      rw [hbuff _ (by omega)]
      exact congrArg s.slotAt (by omega)
    · rintro ⟨j, hj, rfl⟩
      refine ⟨hwas j hj, ?_⟩
      rintro ⟨i, hi, heq⟩
      have hi' : i < s.imemFree - 4 := hi
      have hj' : j < 4 := hj
      have heq' : s.slotAt i = s.slotAt (s.imemFree - 1 - j) := heq.trans (hbuff j hj)
      have hpos := hs.arranged.inj _ _ (by omega) (by omega) heq'
      omega
  · rintro k ⟨i, hi, rfl⟩
    exact ⟨i, hi.trans_le (Nat.sub_le _ _), rfl⟩
  · intro k
    rw [Pool.used_refill hf hle]
    refine or_congr_right (exists_congr fun j ↦ and_congr_right fun hj ↦ ?_)
    rw [hbuff j hj]
  · intro m hm
    have hm' : m ≤ 4 := hm
    refine ⟨s.refill m, refillLoop_eq hm (by omega) (hle.trans hs.cap), ?_⟩
    simp only [Pool.refill]
    omega

/-- Every way a call of `mm_pool_get_free` can go. -/
theorem mmPoolGetFree_cases (hs : PoolCounts s) (env : Env) :
    (4 ≤ s.imemFree ∧ mmPoolGetFree s env = .ok (true, s.refill 4)) ∨
    (s.imemFree < 4 ∧ ∃ a b, env.reallocRoot = some a ∧ env.reallocData = some b ∧
      mmPoolGetFree s env = .ok (true, (s.expanded env a b).refill 4)) ∨
    (s.imemFree < 4 ∧ ∃ t, mmPoolGetFree s env = .ok (false, t)) := by
  rcases Nat.lt_or_ge s.imemFree 4 with hlow | hge
  · right
    cases ha : env.reallocRoot with
    | none => exact .inr ⟨hlow, s, by simp [mmPoolGetFree, mmPoolBuff, hlow, mmPoolExpand, ha]⟩
    | some a =>
        cases hb : env.reallocData with
        | none =>
            refine .inr ⟨hlow, s.reallocRoot env a, ?_⟩
            simp [mmPoolGetFree, mmPoolBuff, hlow, mmPoolExpand, ha, hb]
        | some b =>
            refine .inl ⟨hlow, a, b, rfl, rfl, ?_⟩
            simp [mmPoolGetFree, mmPoolBuff, hlow, mmPoolExpand_eq hs.free_le ha hb,
              expanded_refillLoop hs.free_le, Except.map]
  · refine .inl ⟨hge, ?_⟩
    simp [mmPoolGetFree, mmPoolBuff, Nat.not_lt.mpr hge,
      refillLoop_eq le_rfl hge (hs.free_le.trans hs.cap), Except.map]

theorem PoolCounts.getFree (hs : PoolCounts s) (h : mmPoolGetFree s env = .ok (true, t)) :
    PoolCounts t ∧ RefillExact s env t := by
  rcases mmPoolGetFree_cases hs env with ⟨hge, heq⟩ | ⟨hlow, a, b, ha, hb, heq⟩ | ⟨-, u, heq⟩
  · obtain rfl : s.refill 4 = t := by simpa [h] using heq.symm
    exact ⟨hs.refill hge, s, .inr ⟨hge, rfl⟩, hs.taken hge⟩
  · obtain rfl : (s.expanded env a b).refill 4 = t := by simpa [h] using heq.symm
    have hfour := s.four_le_expanded env a b
    have hbig := hs.expanded env a b
    exact ⟨hbig.refill hfour, _, .inl ⟨hlow, mmPoolExpand_eq hs.free_le ha hb, hs.grown env a b⟩,
      hbig.taken hfour⟩
  · simp [h] at heq

theorem PoolCounts.expand (hs : PoolCounts s) (h : mmPoolExpand s env = .ok (true, t)) :
    PoolCounts t ∧ Grown s t := by
  cases ha : env.reallocRoot with
  | none => simp [mmPoolExpand, ha] at h
  | some a =>
      cases hb : env.reallocData with
      | none => simp [mmPoolExpand, ha, hb] at h
      | some b =>
          rw [mmPoolExpand_eq hs.free_le ha hb] at h
          obtain rfl : s.expanded env a b = t := by simpa using h
          exact ⟨hs.expanded env a b, hs.grown env a b⟩

end Step

/-! ## Runs -/

/-- A pool and the slots that refills have taken so far, in order. -/
structure RefillRun where
  pool : Pool
  taken : List ℕ

inductive RefillOp
  | getFree (env : Env)
  | expand (env : Env)

/-- A run goes on while the calls succeed: `none` is a call that returned
`-1`, `some` a fault. -/
def refillStep (s : RefillRun) : RefillOp → Except (Option Fault) RefillRun
  | .getFree env =>
      match mmPoolGetFree s.pool env with
      | .error e => .error (some e)
      | .ok (false, _) => .error none
      | .ok (true, t) =>
          .ok ⟨t, s.taken ++ (List.range mmPoolBuff).map fun j ↦ (t.buff j).iheapIdx⟩
  | .expand env =>
      match mmPoolExpand s.pool env with
      | .error e => .error (some e)
      | .ok (false, _) => .error none
      | .ok (true, t) => .ok ⟨t, s.taken⟩

/-- What one successful call does, as a law of the step. -/
def StepExact (s : RefillRun) (op : RefillOp) : Prop :=
  ∀ t, refillStep s op = .ok t →
    match op with
    | .getFree env => RefillExact s.pool env t.pool ∧
        ∀ j, j < mmPoolBuff → (t.pool.buff j).iheapIdx ∉ s.taken
    | .expand _ => Grown s.pool t.pool

/-- The used window is that of `s₀` and the slots taken since, each taken
once. -/
structure TakenSince (s₀ : Pool) (s : RefillRun) : Prop where
  counted : PoolCounts s.pool
  nodup : s.taken.Nodup
  used : ∀ k, s.pool.Used k ↔ s₀.Used k ∨ k ∈ s.taken
  fresh : ∀ k ∈ s.taken, ¬s₀.Used k

theorem refillStep_getFree {s t : RefillRun} {env : Env}
    (h : refillStep s (.getFree env) = .ok t) :
    mmPoolGetFree s.pool env = .ok (true, t.pool) ∧
      t.taken = s.taken ++ (List.range mmPoolBuff).map fun j ↦ (t.pool.buff j).iheapIdx := by
  simp only [refillStep] at h
  split at h
  · simp at h
  · simp at h
  · next u hu =>
      obtain rfl := Except.ok.inj h
      exact ⟨hu, rfl⟩

theorem refillStep_expand {s t : RefillRun} {env : Env}
    (h : refillStep s (.expand env) = .ok t) :
    mmPoolExpand s.pool env = .ok (true, t.pool) ∧ t.taken = s.taken := by
  simp only [refillStep] at h
  split at h
  · simp at h
  · simp at h
  · next u hu =>
      obtain rfl := Except.ok.inj h
      exact ⟨hu, rfl⟩

theorem RefillExact.not_used {s t : Pool} {env : Env} (h : RefillExact s env t) {j : ℕ}
    (hj : j < mmPoolBuff) : ¬s.Used (t.buff j).iheapIdx := by
  obtain ⟨u, ⟨-, -, hgrown⟩ | ⟨-, rfl⟩, htaken⟩ := h
  · rw [← hgrown.used]
    exact htaken.not_used j hj
  · exact htaken.not_used j hj

theorem RefillExact.used {s t : Pool} {env : Env} (h : RefillExact s env t) (k : ℕ) :
    t.Used k ↔ s.Used k ∨ ∃ j < mmPoolBuff, (t.buff j).iheapIdx = k := by
  obtain ⟨u, ⟨-, -, hgrown⟩ | ⟨-, rfl⟩, htaken⟩ := h
  · rw [htaken.used, hgrown.used]
  · exact htaken.used k

theorem RefillExact.distinct {s t : Pool} {env : Env} (h : RefillExact s env t) :
    ((List.range mmPoolBuff).map fun j ↦ (t.buff j).iheapIdx).Nodup := by
  obtain ⟨u, -, htaken⟩ := h
  exact htaken.distinct

theorem TakenSince.stepExact {s₀ : Pool} {s : RefillRun} (hs : TakenSince s₀ s) (op : RefillOp) :
    StepExact s op := by
  intro t h
  cases op with
  | getFree env =>
      have hexact := (hs.counted.getFree (refillStep_getFree h).1).2
      refine ⟨hexact, fun j hj hmem ↦ ?_⟩
      exact hexact.not_used hj ((hs.used _).mpr (.inr hmem))
  | expand env => exact (hs.counted.expand (refillStep_expand h).1).2

theorem TakenSince.step {s₀ : Pool} {s t : RefillRun} {op : RefillOp} (hs : TakenSince s₀ s)
    (h : refillStep s op = .ok t) : TakenSince s₀ t := by
  cases op with
  | getFree env =>
      obtain ⟨hget, htaken⟩ := refillStep_getFree h
      obtain ⟨hcounted, hexact⟩ := hs.counted.getFree hget
      have hnew : ∀ k ∈ (List.range mmPoolBuff).map fun j ↦ (t.pool.buff j).iheapIdx,
          ¬s.pool.Used k := by
        intro k hk
        obtain ⟨j, hj, rfl⟩ := List.mem_map.mp hk
        exact hexact.not_used (List.mem_range.mp hj)
      refine ⟨hcounted, ?_, fun k ↦ ?_, fun k hk ↦ ?_⟩
      · rw [htaken, List.nodup_append']
        refine ⟨hs.nodup, hexact.distinct, fun k hk hk' ↦ ?_⟩
        exact hnew k hk' ((hs.used k).mpr (.inr hk))
      · rw [hexact.used, hs.used, htaken, List.mem_append, or_assoc]
        simp
      · rw [htaken, List.mem_append] at hk
        rcases hk with hk | hk
        · exact hs.fresh k hk
        · exact fun h₀ ↦ hnew k hk ((hs.used k).mpr (.inl h₀))
  | expand env =>
      obtain ⟨hexp, htaken⟩ := refillStep_expand h
      obtain ⟨hcounted, hgrown⟩ := hs.counted.expand hexp
      refine ⟨hcounted, htaken ▸ hs.nodup, fun k ↦ ?_, fun k hk ↦ hs.fresh k (htaken ▸ hk)⟩
      rw [hgrown.used, hs.used, htaken]

theorem TakenSince.no_fault {s₀ : Pool} {s : RefillRun} (hs : TakenSince s₀ s) (op : RefillOp)
    (e : Fault) : refillStep s op ≠ .error (some e) := by
  cases op with
  | getFree env =>
      rcases mmPoolGetFree_cases hs.counted env with ⟨-, heq⟩ | ⟨-, a, b, -, -, heq⟩ | ⟨-, u, heq⟩
      <;> simp [refillStep, heq]
  | expand env =>
      cases ha : env.reallocRoot with
      | none => simp [refillStep, mmPoolExpand, ha]
      | some a =>
          cases hb : env.reallocData with
          | none => simp [refillStep, mmPoolExpand, ha, hb]
          | some b => simp [refillStep, mmPoolExpand_eq hs.counted.free_le ha hb]

/-- Along any run of refills and expansions the three counting facts hold
in every state, each successful call is exact, no slot is taken twice or
while in use, and no array index leaves its array. -/
theorem refill_exact (s : Pool) (hs : PoolCounts s) (ops : List RefillOp) :
    Always refillStep (TakenSince s) ⟨s, []⟩ ops ∧
      EachStep refillStep StepExact ⟨s, []⟩ ops ∧
      ∀ e, run refillStep ⟨s, []⟩ ops ≠ .error (some e) := by
  have h0 : TakenSince s ⟨s, []⟩ := ⟨hs, List.nodup_nil, fun k ↦ by simp, by simp⟩
  have halways : Always refillStep (TakenSince s) ⟨s, []⟩ ops :=
    always_of_step (fun _ _ _ h ht ↦ h.step ht) h0 ops
  have hall : EachStep refillStep (fun _ _ ↦ True) ⟨s, []⟩ ops :=
    halways.eachStep fun _ _ _ ↦ trivial
  refine ⟨halways, halways.eachStep fun _ op ht ↦ ht.stepExact op, fun e ↦ ?_⟩
  exact run_ne_error (fun _ _ _ h _ ht ↦ h.step ht) (fun _ op h _ ↦ h.no_fault op e) h0 hall

theorem PoolDecl.initial_counted (d : PoolDecl) (a b : Addr) : PoolCounts (d.initial a b) := by
  have hsize := le_mmPoolRoundup d.size_pos
  have hslot : (d.initial a b).slotAt = id := rfl
  refine ⟨by rw [hslot, List.map_id], Nat.sub_le _ _, ?_, le_rfl⟩
  simp only [PoolDecl.initial, Pool.refill, PoolDecl.pool]
  omega

theorem refill_exact_char :
    Always refillStep (TakenSince ((gCharHeader 0x1000 0x2000).initial 0x3000 0x4000))
      ⟨(gCharHeader 0x1000 0x2000).initial 0x3000 0x4000, []⟩
      [.getFree grownEnv, .expand grownEnv, .getFree grownEnv] :=
  (refill_exact _ (PoolDecl.initial_counted (gCharHeader 0x1000 0x2000) 0x3000 0x4000) _).1

end Cocool.Mmp
