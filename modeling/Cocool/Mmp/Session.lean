import Cocool.Mmp.Steps

/-!
# Clients of a pool

A session is an initialised pool together with the handles its client
holds: every result of `cocol_X_malloc` and every header made by
`cocol_X_dup` that has not been freed.  A handle is a pointer, so what it
denotes is read from the pool; a grant remembers what it denoted when it
was handed out.
-/

namespace Cocool.Mmp

structure Grant where
  ptr : HeaderPtr
  slot : ℕ
  priv : Addr
  base : Addr
  deriving DecidableEq

structure Session where
  pool : Pool
  live : List Grant

/-- A call of the client's.  `free j` frees the handle at place `j` of the
live list, so each handle is freed at most once. -/
inductive Op
  | malloc (v : List UInt8) (env : Env)
  | init (p : HeaderPtr) (v : List UInt8) (env : Env)
  | free (j : ℕ)
  | dup (p : HeaderPtr)

namespace Session

def grant (live : List Grant) (t : Pool) (p : HeaderPtr) : Except Fault Session :=
  match t.deref p with
  | none => .error .pointer
  | some e => .ok ⟨t, ⟨p, e.iheapIdx, e.privData, t.pmemData⟩ :: live⟩

def step (s : Session) : Op → Except Fault Session
  | .malloc v env =>
      if v.length = s.pool.imemLen then
        match cocolFuncMalloc s.pool v env with
        | .error e => .error e
        | .ok (none, t) => .ok ⟨t, s.live⟩
        | .ok (some p, t) => grant s.live t p
      else .error .client
  | .init p v env =>
      if v.length = s.pool.imemLen then
        (cocolFuncInit s.pool p v env).map fun t ↦ ⟨t, s.live⟩
      else .error .client
  | .free j =>
      match s.live[j]? with
      | none => .error .client
      | some g => (cocolFuncFree s.pool g.ptr).map fun t ↦ ⟨t, s.live.eraseIdx j⟩
  | .dup p => (cocolFuncDup s.pool p).bind fun t ↦ grant s.live t (.client s.pool.clientNum)

def Started (d : PoolDecl) (s : Session) : Prop :=
  ∃ env, mmPoolInit d.pool env = .ok (true, s.pool) ∧ s.live = []

end Session

open Session

def Pool.dupped (s : Pool) (e : CocolTypeHeader) : Pool :=
  { s with
    client := Function.update s.client s.clientNum e
    clientNum := s.clientNum + 1 }

/-- Everything a call that returns can do to a session. -/
inductive StepCase (s : Session) : Op → Session → Prop
  | malloc (v : List UInt8) (env : Env) (p : HeaderPtr) (t : Pool) (e : CocolTypeHeader)
      (hv : v.length = s.pool.imemLen) (hc : MallocCase s.pool v env (some p) t)
      (he : t.deref p = some e) :
      StepCase s (.malloc v env) ⟨t, ⟨p, e.iheapIdx, e.privData, t.pmemData⟩ :: s.live⟩
  | null (v : List UInt8) (env : Env) (t : Pool) (hc : MallocCase s.pool v env none t) :
      StepCase s (.malloc v env) ⟨t, s.live⟩
  | init (p : HeaderPtr) (v : List UInt8) (env : Env) (e : CocolTypeHeader)
      (hv : v.length = s.pool.imemLen) (he : s.pool.deref p = some e)
      (hlow : s.pool.pmemData ≤ e.privData)
      (hhigh : e.privData + s.pool.imemLen ≤ s.pool.pmemData + s.pool.dataCap) :
      StepCase s (.init p v env) ⟨s.pool.writeData (e.privData - s.pool.pmemData) v, s.live⟩
  | free (j : ℕ) (g : Grant) (e : CocolTypeHeader) (hg : s.live[j]? = some g)
      (hcap : s.pool.imemFree < s.pool.headerCap) (he : s.pool.deref g.ptr = some e) :
      StepCase s (.free j) ⟨s.pool.freed g.ptr e, s.live.eraseIdx j⟩
  | dup (p : HeaderPtr) (e : CocolTypeHeader) (he : s.pool.deref p = some e) :
      StepCase s (.dup p) ⟨s.pool.dupped e,
        ⟨.client s.pool.clientNum, e.iheapIdx, e.privData, s.pool.pmemData⟩ :: s.live⟩

theorem cocolFuncInit_ok {s t : Pool} {p : HeaderPtr} {v : List UInt8} {env : Env}
    (hs : s.Shape) (h : cocolFuncInit s p v env = .ok t) :
    ∃ e, s.deref p = some e ∧ s.pmemData ≤ e.privData ∧
      e.privData + s.imemLen ≤ s.pmemData + s.dataCap ∧
      t = s.writeData (e.privData - s.pmemData) v := by
  simp only [cocolFuncInit, ensureInit, hs.init, ↓reduceIte, Except.bind] at h
  cases he : s.deref p with
  | none => simp [he] at h
  | some e =>
      simp only [he, Pool.storeAt] at h
      split_ifs at h with hrange
      exact ⟨e, rfl, hrange.1, hrange.2, (Except.ok.inj h).symm⟩

theorem stepCase {s t : Session} {op : Op} (hs : s.pool.Shape) (h : step s op = .ok t) :
    StepCase s op t := by
  cases op with
  | malloc v env =>
      simp only [step] at h
      split_ifs at h with hv
      cases hm : cocolFuncMalloc s.pool v env with
      | error e => simp [hm] at h
      | ok r =>
          obtain ⟨r, u⟩ := r
          have hc := mallocCase hs hm
          cases r with
          | none =>
              simp only [hm, Except.ok.injEq] at h
              subst h
              exact .null v env u hc
          | some p =>
              simp only [hm, grant] at h
              cases he : u.deref p with
              | none => simp [he] at h
              | some e =>
                  simp only [he, Except.ok.injEq] at h
                  subst h
                  exact .malloc v env p u e hv hc he
  | init p v env =>
      simp only [step] at h
      split_ifs at h with hv
      obtain ⟨u, hu, rfl⟩ := Lib.map_eq_ok_iff.mp h
      obtain ⟨e, he, hlow, hhigh, rfl⟩ := cocolFuncInit_ok hs hu
      exact .init p v env e hv he hlow hhigh
  | free j =>
      cases hg : s.live[j]? with
      | none => simp [step, hg] at h
      | some g =>
          simp only [step, hg] at h
          obtain ⟨u, hu, rfl⟩ := Lib.map_eq_ok_iff.mp h
          obtain ⟨hcap, e, he, rfl⟩ := mmPoolFreeElem_ok hu
          exact .free j g e hg hcap he
  | dup p =>
      cases he : s.pool.deref p with
      | none => simp [step, cocolFuncDup, he, Except.bind] at h
      | some e =>
          have hnew : (s.pool.dupped e).deref (.client s.pool.clientNum) = some e := by
            simp [Pool.deref, Pool.dupped]
          have heq : grant s.live (s.pool.dupped e) (.client s.pool.clientNum) = .ok t := by
            simpa only [step, cocolFuncDup, he, Except.bind, Pool.dupped] using h
          simp only [grant, hnew, Except.ok.injEq] at heq
          subst heq
          exact .dup p e he

/-! ## The shape of the pool along a session -/

section

attribute [local simp] Pool.refill Pool.expanded Pool.grow Pool.reallocRoot Pool.reallocData
  Pool.logged Pool.bumpRef mmPoolExpandNum

theorem MallocCase.shape {s t : Pool} {v : List UInt8} {env : Env} {r : Option HeaderPtr}
    (h : MallocCase s v env r t) (hs : s.Shape) : t.Shape := by
  obtain ⟨hinit, hsize, hcap, hdata, hmask, hlen⟩ := hs
  cases h with
  | hit i _ _ => exact ⟨hinit, hsize, hcap, hdata, hmask, hlen⟩
  | take _ hm => exact ⟨hinit, hsize, hcap, hdata, hm, hlen⟩
  | refill _ _ _ _ => exact ⟨hinit, hsize, hcap, hdata, by simp, hlen⟩
  | grow _ _ _ a b _ _ =>
      exact ⟨hinit, by simp only [Pool.refill, Pool.expanded, Pool.grow]; omega, by simp,
        by simp, by simp, hlen⟩
  | noRoot _ _ _ _ => exact ⟨hinit, hsize, hcap, hdata, hmask, hlen⟩
  | noData _ _ _ a _ _ => exact ⟨hinit, hsize, by simp, hdata, hmask, hlen⟩

end

theorem Pool.Shape.freed {s : Pool} (hs : s.Shape) (p : HeaderPtr) (e : CocolTypeHeader) :
    (s.freed p e).Shape := by
  cases p <;> exact ⟨hs.init, hs.size, hs.cap, hs.dataCap, hs.mask, hs.len_pos⟩

theorem step_shape {s t : Session} {op : Op} (hs : s.pool.Shape) (h : step s op = .ok t) :
    t.pool.Shape := by
  cases stepCase hs h with
  | malloc v env p t e _ hc _ => exact hc.shape hs
  | null v env t hc => exact hc.shape hs
  | init p v env e _ _ _ _ =>
      exact ⟨hs.init, hs.size, hs.cap, hs.dataCap, hs.mask, hs.len_pos⟩
  | free j g e _ _ _ => exact hs.freed g.ptr e
  | dup p e _ => exact ⟨hs.init, hs.size, hs.cap, hs.dataCap, hs.mask, hs.len_pos⟩

def noMemory : Env := ⟨none, none, none, fun _ ↦ ⟨0, 0, 0, 0⟩, none, fun _ ↦ 0⟩

def grownEnv : Env :=
  { noMemory with
    reallocRoot := some 0x8000
    rootTail := fun _ ↦ ⟨0xdead, 0xbeef, 7, 0⟩
    reallocData := some 0x9000
    dataTail := fun _ ↦ 0xcd }

theorem started_initial (d : PoolDecl) (a b : Addr) : Started d ⟨d.initial a b, []⟩ :=
  ⟨{ noMemory with mallocRoot := some a, mallocData := some b }, mmPoolInit_eq rfl rfl, rfl⟩

theorem Session.Started.eq_initial {d : PoolDecl} {s : Session} (h : Started d s) :
    ∃ a b, s = ⟨d.initial a b, []⟩ := by
  obtain ⟨env, hinit, hlive⟩ := h
  obtain ⟨a, b, hab⟩ := mmPoolInit_ok hinit
  refine ⟨a, b, ?_⟩
  cases s
  simp_all

end Cocool.Mmp
