import Cocool.Mmp.Session

/-!
# The free boundary and its counters

Every free moves the boundary up by one and every refill moves it down by
four, while a lookup hit hands out a handle and leaves it alone.  So the
boundary stays inside the array exactly as long as no free happens with
the boundary already at the end.
-/

namespace Cocool.Mmp

open Session Lib

structure Counters (s : Session) : Prop where
  free_le : s.pool.imemFree ≤ s.pool.imemSize
  used_eq : s.pool.imemUsed = s.pool.imemSize - s.pool.imemFree
  used_nonneg : 0 ≤ s.pool.imemUsed
  mask_le : s.pool.buffMask ≤ mmPoolBuff

/-- The counters hold all along a run and none of its array indices is out
of range. -/
def CounterSafe (s : Session) (ops : List Op) : Prop :=
  Always step Counters s ops ∧ run step s ops ≠ .error .index

def FreeBelow (s : Session) : Op → Prop
  | .free j => j < s.live.length → s.pool.imemFree < s.pool.imemSize
  | _ => True

instance (s : Session) : Decidable (Counters s) :=
  decidable_of_iff (s.pool.imemFree ≤ s.pool.imemSize ∧
    s.pool.imemUsed = s.pool.imemSize - s.pool.imemFree ∧ 0 ≤ s.pool.imemUsed ∧
    s.pool.buffMask ≤ mmPoolBuff)
    ⟨fun ⟨h₁, h₂, h₃, h₄⟩ ↦ ⟨h₁, h₂, h₃, h₄⟩, fun ⟨h₁, h₂, h₃, h₄⟩ ↦ ⟨h₁, h₂, h₃, h₄⟩⟩

instance (s : Session) : DecidablePred (FreeBelow s)
  | .free j => inferInstanceAs (Decidable (j < s.live.length → _ < _))
  | .malloc _ _ => isTrue trivial
  | .init _ _ _ => isTrue trivial
  | .dup _ => isTrue trivial

theorem MallocCase.counters {s t : Pool} {live live' : List Grant} {v : List UInt8} {env : Env}
    {r : Option HeaderPtr} (h : MallocCase s v env r t) (hs : Counters ⟨s, live⟩) :
    Counters ⟨t, live'⟩ := by
  obtain ⟨hle, heq, hpos, hmask⟩ := hs
  simp only [mmPoolBuff] at hle heq hpos hmask
  cases h with
  | hit i _ _ => exact ⟨hle, heq, hpos, hmask⟩
  | take _ hm => exact ⟨hle, heq, hpos, hm⟩
  | refill _ _ hf _ => constructor <;> simp only [Pool.refill, mmPoolBuff] <;> omega
  | grow _ _ _ a b _ _ =>
      constructor <;> simp only [Pool.refill, Pool.expanded, Pool.grow, Pool.reallocData,
        Pool.reallocRoot, Pool.logged, mmPoolBuff] <;> omega
  | noRoot _ _ _ _ => exact ⟨hle, heq, hpos, hmask⟩
  | noData _ _ _ a _ _ => exact ⟨hle, heq, hpos, hmask⟩

theorem step_counters {s t : Session} {op : Op} (hs : s.pool.Shape ∧ Counters s)
    (hop : FreeBelow s op) (h : step s op = .ok t) : t.pool.Shape ∧ Counters t := by
  refine ⟨step_shape hs.1 h, ?_⟩
  obtain ⟨hle, heq, hpos, hmask⟩ := hs.2
  cases stepCase hs.1 h with
  | malloc v env p t e _ hc _ => exact hc.counters hs.2
  | null v env t hc => exact hc.counters hs.2
  | init p v env e _ _ _ _ => exact ⟨hle, heq, hpos, hmask⟩
  | free j g e hg _ _ =>
      have hlt := hop (List.getElem?_eq_some_iff.mp hg).1
      cases hp : g.ptr <;> constructor <;> simp only [Pool.freed, Pool.writeIdx] <;> omega
  | dup p e _ => exact ⟨hle, heq, hpos, hmask⟩

theorem step_ne_index {s : Session} {op : Op} (hs : s.pool.Shape ∧ Counters s)
    (hop : FreeBelow s op) : step s op ≠ .error .index := by
  have hgrant : ∀ live t p, grant live t p ≠ .error .index := by
    intro live t p
    cases hd : t.deref p <;> simp [grant, hd]
  cases op with
  | malloc v env =>
      have hne := cocolFuncMalloc_ne_index v env hs.1 hs.2.free_le
      simp only [step]
      split_ifs with hv
      · cases hm : cocolFuncMalloc s.pool v env with
        | error e => simpa [hm] using hne
        | ok r =>
            obtain ⟨r, t⟩ := r
            cases r with
            | none => simp
            | some p => exact hgrant _ _ _
      · simp
  | init p v env =>
      simp only [step, cocolFuncInit, ensureInit, hs.1.init, ↓reduceIte, Except.bind]
      split_ifs with hv
      · cases hd : s.pool.deref p with
        | none => simp [Except.map]
        | some e =>
            simp only [Pool.storeAt]
            split_ifs <;> simp [Except.map]
      · simp
  | free j =>
      cases hg : s.live[j]? with
      | none => simp [step, hg]
      | some g =>
          have hlt := hop (List.getElem?_eq_some_iff.mp hg).1
          have hcap : s.pool.imemFree < s.pool.headerCap := hlt.trans_le hs.1.cap
          simp only [step, hg, cocolFuncFree, mmPoolFreeElem, mmPoolShitDown, if_pos hcap]
          split <;> simp_all [Except.map]
  | dup p =>
      simp only [step, cocolFuncDup]
      cases hd : s.pool.deref p with
      | none => simp [Except.bind]
      | some e => exact hgrant _ _ _

theorem PoolDecl.initial_counters (d : PoolDecl) (a b : Addr) :
    Counters ⟨d.initial a b, []⟩ := by
  have hsize := le_mmPoolRoundup d.size_pos
  constructor <;> simp only [PoolDecl.initial, Pool.refill, PoolDecl.pool, mmPoolBuff] <;> omega

theorem freeBelow_of_counters {s : Session} {op : Op} (hs : s.pool.Shape ∧ Counters s)
    (hok : ∀ t, step s op = .ok t → Counters t)
    (herr : ∀ e, step s op = .error e → ¬(e = .index ∨ e = .pointer)) : FreeBelow s op := by
  cases op with
  | free j =>
      intro hj
      have hg := List.getElem?_eq_getElem hj
      by_contra hfull
      cases hstep : step s (.free j) with
      | ok t =>
          have hle := (hok t hstep).free_le
          cases stepCase hs.1 hstep with
          | free _ g' e _ _ _ =>
              cases hp : g'.ptr <;> simp only [hp, Pool.freed, Pool.writeIdx] at hle <;> omega
      | error e =>
          have hne := herr e hstep
          simp only [step, hg, cocolFuncFree, mmPoolFreeElem, mmPoolShitDown] at hstep
          split_ifs at hstep with hcap
          · split at hstep <;> simp_all [Except.map]
          · simp_all [Except.map]
  | _ => trivial

/-- In a run of any length the counters hold in every state and no array
index leaves its array, provided each free finds the boundary below the end
of the array; and a run that is not cut short by a wild pointer has these
properties only then. -/
theorem counters_of_freeBelow {d : PoolDecl} {s : Session} (hs : Started d s) (ops : List Op) :
    (EachStep step FreeBelow s ops → CounterSafe s ops) ∧
    (run step s ops ≠ .error .pointer → CounterSafe s ops → EachStep step FreeBelow s ops) := by
  obtain ⟨a, b, rfl⟩ := hs.eq_initial
  have h0 : (d.initial a b).Shape ∧ Counters ⟨d.initial a b, []⟩ :=
    ⟨d.initial_shape a b, d.initial_counters a b⟩
  refine ⟨fun h ↦ ⟨?_, ?_⟩, fun hptr ⟨halways, hidx⟩ ↦ ?_⟩
  · exact (always_of_eachStep (fun _ _ _ ↦ step_counters) h0 h).mono fun _ ht ↦ ht.2
  · exact run_ne_error (fun _ _ _ ↦ step_counters) (fun _ _ ↦ step_ne_index) h0 h
  · refine eachStep_of_always (E := fun e ↦ e = .index ∨ e = .pointer)
      (fun _ _ _ ↦ step_counters) (fun _ _ ↦ freeBelow_of_counters) h0 halways ?_
    rintro e (rfl | rfl)
    · exact hidx
    · exact hptr

/-- A client of the character pool that interns one value five times and
frees each of the five results: the last free finds every slot free. -/
theorem counters_char_overfree :
    Started (gCharHeader 0x1000 0x2000) ⟨(gCharHeader 0x1000 0x2000).initial 0x3000 0x4000, []⟩ ∧
    ¬CounterSafe ⟨(gCharHeader 0x1000 0x2000).initial 0x3000 0x4000, []⟩
      (List.replicate 5 (.malloc [0, 0, 0, 0] noMemory) ++ List.replicate 5 (.free 0)) :=
  ⟨started_initial _ _ _, fun h ↦ h.2 (by decide +kernel)⟩

theorem counters_of_freeBelow_char :
    CounterSafe ⟨(gCharHeader 0x1000 0x2000).initial 0x3000 0x4000, []⟩
      [.malloc [0, 0, 0, 7] noMemory, .free 0] :=
  (counters_of_freeBelow (started_initial (gCharHeader 0x1000 0x2000) 0x3000 0x4000)
    [.malloc [0, 0, 0, 7] noMemory, .free 0]).1 (by decide +kernel)

end Cocool.Mmp
