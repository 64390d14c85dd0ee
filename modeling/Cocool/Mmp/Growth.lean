import Cocool.Mmp.Coherence

/-!
# What an expansion leaves unset

`mm_pool_init` fills in every header and clears the data; `mm_pool_expand`
sets the slot index of the headers it adds and nothing else.  The slots it
adds are named by headers that belonged to other slots or that hold
whatever `realloc` left in the block.
-/

namespace Cocool.Mmp

open Session Lib

/-- The header at position `i` and the slot it names are as `mm_pool_init`
leaves them. -/
structure LikeInit (s : Pool) (i : ℕ) : Prop where
  irefcount : (s.headers i).irefcount = 0
  privData : (s.headers i).Coherent s
  bytes : s.slotBytes (s.slotAt i) = List.replicate s.imemLen 0

/-- A session with the slots that were ever handed out and the headers as
`cocol_X_malloc` returned them. -/
structure GrowRun where
  session : Session
  handed : List ℕ
  returned : List CocolTypeHeader

def newHandle (s t : Session) : Op → Option Grant
  | .malloc _ _ => if s.live.length < t.live.length then t.live.head? else none
  | _ => none

def growStep (x : GrowRun) (op : Op) : Except Fault GrowRun :=
  (step x.session op).map fun t ↦
    let g := newHandle x.session t op
    ⟨t, (g.map Grant.slot).toList ++ x.handed,
      (g.bind fun g ↦ t.pool.deref g.ptr).toList ++ x.returned⟩

/-- Every header returned so far has the pool's type tag, and the slots
added since the pool had `n₀` of them are like new until handed out. -/
structure AsGood (n₀ : ℕ) (x : GrowRun) : Prop where
  typed : ∀ e ∈ x.returned, e.pcocolBaseType = x.session.pool.pdataType
  fresh : ∀ i < x.session.pool.imemSize, n₀ ≤ x.session.pool.slotAt i →
    x.session.pool.slotAt i < x.session.pool.imemSize →
    x.session.pool.slotAt i ∉ x.handed → LikeInit x.session.pool i

/-- The call does not expand the pool, and a free does not push the boundary
into header entries of an expansion that failed half way. -/
def NoGrowth (x : GrowRun) : Op → Prop
  | .malloc v env =>
      x.session.pool.lookup v = none → x.session.pool.buffMask = 4 →
        x.session.pool.imemFree < 4 → env.reallocRoot = none ∨ env.reallocData = none
  | .free _ =>
      x.session.pool.imemFree < x.session.pool.headerCap →
        x.session.pool.imemFree < x.session.pool.imemSize
  | _ => True

/-- `realloc` does not move the data to a lower address, nothing is freed
past the end of the array, and only what the client holds is copied. -/
def Ordinary (x : GrowRun) : Op → Prop
  | .malloc _ env => ∀ b ∈ env.reallocData, x.session.pool.pmemData ≤ b
  | .free _ => x.session.pool.imemFree < x.session.pool.imemSize
  | .dup p => ∃ g ∈ x.session.live, g.ptr = p
  | .init _ _ _ => True

instance (x : GrowRun) : DecidablePred (NoGrowth x)
  | .malloc _ _ => inferInstanceAs (Decidable (_ → _ → _ → _))
  | .free _ => inferInstanceAs (Decidable (_ < _ → _ < _))
  | .init _ _ _ => isTrue trivial
  | .dup _ => isTrue trivial

/-- What one step adds to the two logs. -/
theorem growStep_ok {x y : GrowRun} {op : Op} (hs : x.session.pool.Shape)
    (h : growStep x op = .ok y) :
    step x.session op = .ok y.session ∧
      ((y.handed = x.handed ∧ y.returned = x.returned) ∨
        ∃ v env p e, op = .malloc v env ∧
          MallocCase x.session.pool v env (some p) y.session.pool ∧
          y.session.pool.deref p = some e ∧ y.handed = e.iheapIdx :: x.handed ∧
          y.returned = e :: x.returned) := by
  obtain ⟨t, ht, rfl⟩ := map_eq_ok_iff.mp h
  refine ⟨ht, ?_⟩
  cases stepCase hs ht with
  | malloc v env p t e _ hc he =>
      exact .inr ⟨v, env, p, e, rfl, hc, he, by simp [newHandle], by simp [newHandle, he]⟩
  | null v env t hc => exact .inl (by simp [newHandle])
  | init p v env e _ _ _ _ => exact .inl ⟨rfl, rfl⟩
  | free j g e _ _ _ => exact .inl ⟨rfl, rfl⟩
  | dup p e _ => exact .inl ⟨rfl, rfl⟩

/-! ## A property of all headers -/

/-- `P` holds of every header in `proot` and `buff`. -/
structure AllHeaders (P : CocolTypeHeader → Prop) (s : Pool) : Prop where
  proot : ∀ i < s.imemSize, P (s.headers i)
  buff : ∀ k < mmPoolBuff, P (s.buff k)

/-- `P` does not look at the fields that a lookup and a refill write. -/
structure Steady (P : CocolTypeHeader → Prop) : Prop where
  irefcount : ∀ e n, P e → P { e with irefcount := n }
  privData : ∀ e a, P e → P { e with privData := a }

section AllHeaders

variable {P : CocolTypeHeader → Prop} {s t : Pool} {v : List UInt8} {env : Env}

theorem AllHeaders.bumpRef (hP : Steady P) (h : AllHeaders P s) (i : ℕ) :
    AllHeaders P (s.bumpRef i) := by
  refine ⟨fun j hj ↦ ?_, h.buff⟩
  have hold := h.proot j hj
  by_cases hji : j = i
  · subst hji
    simpa [Pool.bumpRef] using hP.irefcount _ _ hold
  · simpa [Pool.bumpRef, hji] using hold

theorem AllHeaders.refill (hP : Steady P) (h : AllHeaders P s) (hf : 4 ≤ s.imemFree)
    (hle : s.imemFree ≤ s.imemSize) (m : ℕ) : AllHeaders P { s.refill 4 with buffMask := m } := by
  refine ⟨h.proot, fun k hk ↦ ?_⟩
  have hk' : k < 4 := hk
  have hin : s.imemFree - 1 - k < s.imemSize := by omega
  simpa [Pool.refill, hk'] using hP.privData _ _ (h.proot _ hin)

theorem AllHeaders.reallocRoot (h : AllHeaders P s) (hs : s.Shape) (env : Env) (a : Addr) :
    AllHeaders P (s.reallocRoot env a) := by
  refine ⟨fun i hi ↦ ?_, h.buff⟩
  have hin : i < s.headerCap := Nat.lt_of_lt_of_le hi hs.cap
  simpa [Pool.reallocRoot, Pool.logged, hin] using h.proot i hi

/-- A call that does not expand the pool. -/
theorem MallocCase.allHeaders {r : Option HeaderPtr} (hP : Steady P)
    (hc : MallocCase s v env r t) (hs : s.Shape) (hf : s.imemFree ≤ s.imemSize)
    (hop : s.lookup v = none → s.buffMask = 4 → s.imemFree < 4 →
      env.reallocRoot = none ∨ env.reallocData = none)
    (h : AllHeaders P s) : AllHeaders P t := by
  cases hc with
  | hit i _ _ => exact h.bumpRef hP i
  | take _ _ => exact ⟨h.proot, h.buff⟩
  | refill _ _ hge _ => exact h.refill hP hge hf 1
  | grow hmiss hm hlow a b ha hb =>
      rcases hop hmiss hm hlow with hnone | hnone
      · simp [ha] at hnone
      · simp [hb] at hnone
  | noRoot _ _ _ _ => exact h
  | noData _ _ _ a _ _ => exact h.reallocRoot hs env a

theorem AllHeaders.of_malloc {p : HeaderPtr} {e : CocolTypeHeader} (h : AllHeaders P t)
    (hc : MallocCase s v env (some p) t) (he : t.deref p = some e) : P e := by
  have hinside := hc.inside
  cases p with
  | buff k =>
      obtain ⟨hk, rfl⟩ : k < mmPoolBuff ∧ t.buff k = e := by simpa [Pool.deref] using he
      exact h.buff k hk
  | proot base i =>
      obtain ⟨-, rfl⟩ : (base = t.proot ∧ i < t.headerCap) ∧ t.headers i = e := by
        simpa [Pool.deref] using he
      exact h.proot i (hinside base i rfl)
  | client c => cases hc

end AllHeaders

/-- A free writes slot indices only, and exchanges two of them. -/
theorem Pool.freed_fields (s : Pool) (p : HeaderPtr) (e : CocolTypeHeader) :
    (∀ i, ∃ x, (s.freed p e).headers i = { s.headers i with iheapIdx := x } ∧
      (x = s.slotAt i ∨ x = e.iheapIdx ∨ x = s.slotAt s.imemFree)) ∧
    (∀ k, ∃ x, (s.freed p e).buff k = { s.buff k with iheapIdx := x } ∧
      (x = (s.buff k).iheapIdx ∨ x = s.slotAt s.imemFree)) ∧
    ∀ c, ∃ x, (s.freed p e).client c = { s.client c with iheapIdx := x } ∧
      (x = (s.client c).iheapIdx ∨ x = s.slotAt s.imemFree) := by
  have hself : ∀ (f : ℕ → CocolTypeHeader) (i j x : ℕ), ∃ y,
      Function.update f i { f i with iheapIdx := x } j = { f j with iheapIdx := y } ∧
        (y = (f j).iheapIdx ∨ y = x) := by
    intro f i j x
    by_cases hji : j = i
    · subst hji
      exact ⟨x, by simp, .inr rfl⟩
    · exact ⟨(f j).iheapIdx, by simp [hji], .inl rfl⟩
  have hone : ∀ i, ∃ x, Function.update s.headers s.imemFree
      { s.headers s.imemFree with iheapIdx := e.iheapIdx } i =
        { s.headers i with iheapIdx := x } ∧
      (x = s.slotAt i ∨ x = e.iheapIdx ∨ x = s.slotAt s.imemFree) := by
    intro i
    obtain ⟨x, hx, hval⟩ := hself s.headers s.imemFree i e.iheapIdx
    exact ⟨x, hx, hval.imp_right .inl⟩
  have hkeep : ∀ (f : ℕ → CocolTypeHeader) (j : ℕ), ∃ y,
      f j = { f j with iheapIdx := y } ∧ (y = (f j).iheapIdx ∨ y = s.slotAt s.imemFree) :=
    fun f j ↦ ⟨(f j).iheapIdx, rfl, .inl rfl⟩
  cases p with
  | buff k => exact ⟨hone, fun j ↦ hself _ k j _, hkeep _⟩
  | client c => exact ⟨hone, hkeep _, fun j ↦ hself _ c j _⟩
  | proot base i =>
      refine ⟨fun j ↦ ?_, hkeep _, hkeep _⟩
      obtain ⟨x, hx, hval⟩ := hone j
      obtain ⟨y, hy, hval'⟩ := hself (Function.update s.headers s.imemFree
        { s.headers s.imemFree with iheapIdx := e.iheapIdx }) i j (s.slotAt s.imemFree)
      refine ⟨y, hy.trans (by rw [hx]), ?_⟩
      rw [hx] at hval'
      rcases hval' with rfl | rfl
      · exact hval
      · exact .inr (.inr rfl)

/-! ## Runs that do not grow the pool -/

/-- The pool still has its `n₀` slots, and all headers carry the tag. -/
structure Ungrown (n₀ : ℕ) (tag : Addr) (x : GrowRun) : Prop where
  shape : x.session.pool.Shape
  tag_eq : x.session.pool.pdataType = tag
  size : x.session.pool.imemSize = n₀
  free_le : x.session.pool.imemFree ≤ x.session.pool.imemSize
  headers : AllHeaders (fun e ↦ e.pcocolBaseType = tag) x.session.pool
  returned : ∀ e ∈ x.returned, e.pcocolBaseType = tag

theorem steady_tag (tag : Addr) : Steady fun e ↦ e.pcocolBaseType = tag :=
  ⟨fun _ _ h ↦ h, fun _ _ h ↦ h⟩

/-- The sizes after a call that does not expand the pool. -/
theorem MallocCase.sizes {s t : Pool} {v : List UInt8} {env : Env} {r : Option HeaderPtr}
    (hc : MallocCase s v env r t)
    (hop : s.lookup v = none → s.buffMask = 4 → s.imemFree < 4 →
      env.reallocRoot = none ∨ env.reallocData = none) :
    t.pdataType = s.pdataType ∧ t.imemSize = s.imemSize ∧ t.imemFree ≤ s.imemFree ∧
      t.pmemData = s.pmemData ∧ t.imemLen = s.imemLen ∧ t.client = s.client ∧
      t.clientNum = s.clientNum := by
  cases hc with
  | hit i _ _ => exact ⟨rfl, rfl, le_rfl, rfl, rfl, rfl, rfl⟩
  | take _ _ => exact ⟨rfl, rfl, le_rfl, rfl, rfl, rfl, rfl⟩
  | refill _ _ _ _ => exact ⟨rfl, rfl, Nat.sub_le _ _, rfl, rfl, rfl, rfl⟩
  | grow hmiss hm hlow a b ha hb =>
      rcases hop hmiss hm hlow with hnone | hnone
      · simp [ha] at hnone
      · simp [hb] at hnone
  | noRoot _ _ _ _ => exact ⟨rfl, rfl, le_rfl, rfl, rfl, rfl, rfl⟩
  | noData _ _ _ a _ _ => exact ⟨rfl, rfl, le_rfl, rfl, rfl, rfl, rfl⟩

theorem Pool.freed_sizes (s : Pool) (p : HeaderPtr) (e : CocolTypeHeader) :
    (s.freed p e).pdataType = s.pdataType ∧ (s.freed p e).imemSize = s.imemSize ∧
      (s.freed p e).imemFree = s.imemFree + 1 ∧ (s.freed p e).pmemData = s.pmemData ∧
      (s.freed p e).imemLen = s.imemLen ∧ (s.freed p e).clientNum = s.clientNum := by
  cases p <;> exact ⟨rfl, rfl, rfl, rfl, rfl, rfl⟩

theorem AllHeaders.freed {s : Pool} {tag : Addr}
    (h : AllHeaders (fun e ↦ e.pcocolBaseType = tag) s) (p : HeaderPtr) (e : CocolTypeHeader) :
    AllHeaders (fun e ↦ e.pcocolBaseType = tag) (s.freed p e) := by
  obtain ⟨hproot, hbuff, -⟩ := s.freed_fields p e
  refine ⟨fun i hi ↦ ?_, fun k hk ↦ ?_⟩
  · obtain ⟨x, hx, -⟩ := hproot i
    rw [hx]
    exact h.proot i (by rwa [s.freed_imemSize] at hi)
  · obtain ⟨x, hx, -⟩ := hbuff k
    rw [hx]
    exact h.buff k hk

/-- Along a step without growth the pool keeps its slots and its tags. -/
theorem Ungrown.session {n₀ : ℕ} {tag : Addr} {x : GrowRun} {t : Session} {op : Op}
    (hx : Ungrown n₀ tag x) (hop : NoGrowth x op) (h : step x.session op = .ok t) :
    t.pool.Shape ∧ t.pool.pdataType = tag ∧ t.pool.imemSize = n₀ ∧
      t.pool.imemFree ≤ t.pool.imemSize ∧
      AllHeaders (fun e ↦ e.pcocolBaseType = tag) t.pool := by
  have hle := hx.free_le
  have hsize := hx.size
  refine ⟨step_shape hx.shape h, ?_⟩
  cases stepCase hx.shape h with
  | malloc v env p t e _ hc _ =>
      obtain ⟨htag, hsz, hfr, -⟩ := hc.sizes hop
      exact ⟨htag.trans hx.tag_eq, hsz.trans hsize, hfr.trans (hle.trans_eq hsz.symm),
        hc.allHeaders (steady_tag tag) hx.shape hle hop hx.headers⟩
  | null v env t hc =>
      obtain ⟨htag, hsz, hfr, -⟩ := hc.sizes hop
      exact ⟨htag.trans hx.tag_eq, hsz.trans hsize, hfr.trans (hle.trans_eq hsz.symm),
        hc.allHeaders (steady_tag tag) hx.shape hle hop hx.headers⟩
  | init p v env e _ _ _ _ =>
      exact ⟨hx.tag_eq, hsize, hle, hx.headers.proot, hx.headers.buff⟩
  | free j g e _ hcap _ =>
      obtain ⟨htag, hsz, hfr, -⟩ := x.session.pool.freed_sizes g.ptr e
      have hlt := hop hcap
      exact ⟨htag.trans hx.tag_eq, hsz.trans hsize, by simp only [hsz, hfr]; omega,
        hx.headers.freed g.ptr e⟩
  | dup p e _ => exact ⟨hx.tag_eq, hsize, hle, hx.headers.proot, hx.headers.buff⟩

theorem Ungrown.step {n₀ : ℕ} {tag : Addr} {x y : GrowRun} {op : Op} (hx : Ungrown n₀ tag x)
    (hop : NoGrowth x op) (h : growStep x op = .ok y) : Ungrown n₀ tag y := by
  obtain ⟨hstep, hlogs⟩ := growStep_ok hx.shape h
  obtain ⟨hshape, htag, hsize, hfree, hheaders⟩ := hx.session hop hstep
  refine ⟨hshape, htag, hsize, hfree, hheaders, ?_⟩
  rcases hlogs with ⟨-, hret⟩ | ⟨v, env, p, e, -, hc, he, -, hret⟩
  · rw [hret]
    exact hx.returned
  · rw [hret]
    intro e' he'
    rcases List.mem_cons.mp he' with rfl | he'
    · exact hheaders.of_malloc hc he
    · exact hx.returned e' he'

theorem Ungrown.asGood {n₀ : ℕ} {tag : Addr} {x : GrowRun} (hx : Ungrown n₀ tag x) :
    AsGood n₀ x := by
  refine ⟨fun e he ↦ (hx.returned e he).trans hx.tag_eq.symm, fun i _ hlow hhigh ↦ ?_⟩
  have hsize := hx.size
  omega

theorem PoolDecl.initial_ungrown (d : PoolDecl) (a b : Addr) :
    Ungrown (d.initial a b).imemSize d.pdataType ⟨⟨d.initial a b, []⟩, [], []⟩ := by
  refine ⟨d.initial_shape a b, rfl, rfl, Nat.sub_le _ _, ⟨fun _ _ ↦ rfl, fun k hk ↦ ?_⟩, by simp⟩
  have hk' : k < 4 := hk
  simp [PoolDecl.initial, Pool.refill, hk']

/-! ## The first expansion -/

/-- Before the first expansion: every header still has the data pointer of
its own position, and all slot indices are below `n₀`. -/
structure Unmoved (n₀ : ℕ) (x : GrowRun) : Prop where
  inside : Inside x.session
  privData : ∀ i < x.session.pool.imemSize, (x.session.pool.headers i).privData =
    x.session.pool.pmemData + x.session.pool.imemLen * i
  headers : AllHeaders (fun e ↦ e.iheapIdx < n₀) x.session.pool
  client : ∀ c < x.session.pool.clientNum, (x.session.pool.client c).iheapIdx < n₀
  handed : ∀ k ∈ x.handed, k < n₀

theorem steady_idx (n₀ : ℕ) : Steady fun e ↦ e.iheapIdx < n₀ := ⟨fun _ _ h ↦ h, fun _ _ h ↦ h⟩

theorem Unmoved.of_live {n₀ : ℕ} {x : GrowRun} {g : Grant} {e : CocolTypeHeader}
    (hx : Unmoved n₀ x) (hg : g ∈ x.session.live) (he : x.session.pool.deref g.ptr = some e) :
    e.iheapIdx < n₀ := by
  cases hp : g.ptr with
  | buff k =>
      obtain ⟨hk, rfl⟩ : k < mmPoolBuff ∧ x.session.pool.buff k = e := by
        simpa [Pool.deref, hp] using he
      exact hx.headers.buff k hk
  | proot base i =>
      obtain ⟨-, rfl⟩ : (base = x.session.pool.proot ∧ i < x.session.pool.headerCap) ∧
          x.session.pool.headers i = e := by
        simpa [Pool.deref, hp] using he
      exact hx.headers.proot i (hx.inside g hg base i hp)
  | client c =>
      obtain ⟨hc, rfl⟩ : c < x.session.pool.clientNum ∧ x.session.pool.client c = e := by
        simpa [Pool.deref, hp] using he
      exact hx.client c hc

theorem MallocCase.privData {s t : Pool} {v : List UInt8} {env : Env} {r : Option HeaderPtr}
    (hc : MallocCase s v env r t) (hs : s.Shape)
    (hop : s.lookup v = none → s.buffMask = 4 → s.imemFree < 4 →
      env.reallocRoot = none ∨ env.reallocData = none) {i : ℕ} (hi : i < s.imemSize) :
    (t.headers i).privData = (s.headers i).privData := by
  cases hc with
  | hit j _ _ =>
      by_cases hij : i = j
      · simp [Pool.bumpRef, hij]
      · simp [Pool.bumpRef, hij]
  | take _ _ => rfl
  | refill _ _ _ _ => rfl
  | grow hmiss hm hlow a b ha hb =>
      rcases hop hmiss hm hlow with hnone | hnone
      · simp [ha] at hnone
      · simp [hb] at hnone
  | noRoot _ _ _ _ => rfl
  | noData _ _ _ a _ _ =>
      have hin : i < s.headerCap := Nat.lt_of_lt_of_le hi hs.cap
      simp [Pool.reallocRoot, Pool.logged, hin]

/-- What `Unmoved` says of the pool itself. -/
structure InPlace (n₀ : ℕ) (s : Pool) : Prop where
  privData : ∀ i < s.imemSize, (s.headers i).privData = s.pmemData + s.imemLen * i
  headers : AllHeaders (fun e ↦ e.iheapIdx < n₀) s
  client : ∀ c < s.clientNum, (s.client c).iheapIdx < n₀

section InPlace

variable {n₀ : ℕ} {s t : Pool} {e : CocolTypeHeader}

theorem InPlace.malloc {v : List UInt8} {env : Env} {r : Option HeaderPtr} (h : InPlace n₀ s)
    (hs : s.Shape) (hle : s.imemFree ≤ s.imemSize)
    (hop : s.lookup v = none → s.buffMask = 4 → s.imemFree < 4 →
      env.reallocRoot = none ∨ env.reallocData = none)
    (hc : MallocCase s v env r t) : InPlace n₀ t := by
  obtain ⟨-, hsz, -, hdata, hlen, hclient, hnum⟩ := hc.sizes hop
  refine ⟨fun i hi ↦ ?_, hc.allHeaders (steady_idx n₀) hs hle hop h.headers, ?_⟩
  · rw [hsz] at hi
    rw [hc.privData hs hop hi, hdata, hlen]
    exact h.privData i hi
  · rw [hclient, hnum]
    exact h.client

theorem InPlace.freed (h : InPlace n₀ s) (p : HeaderPtr) (hidx : e.iheapIdx < n₀)
    (hbound : s.imemFree < s.imemSize) : InPlace n₀ (s.freed p e) := by
  obtain ⟨-, hsz, -, hdata, hlen, hnum⟩ := s.freed_sizes p e
  obtain ⟨hproot, hbuff, hclient⟩ := s.freed_fields p e
  have hfirst := h.headers.proot _ hbound
  refine ⟨fun i hi ↦ ?_, ⟨fun i hi ↦ ?_, fun k hk ↦ ?_⟩, fun c hc ↦ ?_⟩
  · obtain ⟨z, hz, -⟩ := hproot i
    rw [hsz] at hi
    rw [hz, hdata, hlen]
    exact h.privData i hi
  · obtain ⟨z, hz, hval⟩ := hproot i
    rw [hsz] at hi
    rw [hz]
    rcases hval with rfl | rfl | rfl
    · exact h.headers.proot i hi
    · exact hidx
    · exact hfirst
  · obtain ⟨z, hz, hval⟩ := hbuff k
    rw [hz]
    rcases hval with rfl | rfl
    · exact h.headers.buff k hk
    · exact hfirst
  · obtain ⟨z, hz, hval⟩ := hclient c
    rw [hnum] at hc
    rw [hz]
    rcases hval with rfl | rfl
    · exact h.client c hc
    · exact hfirst

theorem InPlace.dupped (h : InPlace n₀ s) (hidx : e.iheapIdx < n₀) : InPlace n₀ (s.dupped e) := by
  refine ⟨h.privData, ⟨h.headers.proot, h.headers.buff⟩, fun c hc ↦ ?_⟩
  simp only [Pool.dupped] at hc ⊢
  by_cases hcn : c = s.clientNum
  · simpa [hcn] using hidx
  · simpa [hcn] using h.client c (by omega)

end InPlace

theorem Unmoved.session {n₀ : ℕ} {tag : Addr} {x : GrowRun} {t : Session} {op : Op}
    (hu : Ungrown n₀ tag x) (hx : Unmoved n₀ x) (hop : NoGrowth x op) (hord : Ordinary x op)
    (h : x.session.step op = .ok t) : InPlace n₀ t.pool := by
  have hpool : InPlace n₀ x.session.pool := ⟨hx.privData, hx.headers, hx.client⟩
  cases stepCase hu.shape h with
  | malloc v env p t e _ hc _ => exact hpool.malloc hu.shape hu.free_le hop hc
  | null v env t hc => exact hpool.malloc hu.shape hu.free_le hop hc
  | init p v env e _ _ _ _ =>
      exact ⟨hx.privData, ⟨hx.headers.proot, hx.headers.buff⟩, hx.client⟩
  | free j g e hg _ he =>
      exact hpool.freed g.ptr (hx.of_live (List.mem_of_getElem? hg) he) hord
  | dup p e he =>
      obtain ⟨g, hg, rfl⟩ := hord
      exact hpool.dupped (hx.of_live hg he)

theorem Unmoved.step {n₀ : ℕ} {tag : Addr} {x y : GrowRun} {op : Op} (hu : Ungrown n₀ tag x)
    (hx : Unmoved n₀ x) (hop : NoGrowth x op) (hord : Ordinary x op)
    (h : growStep x op = .ok y) : Unmoved n₀ y := by
  obtain ⟨hstep, hlogs⟩ := growStep_ok hu.shape h
  have hpool := hx.session hu hop hord hstep
  refine ⟨step_inside hu.shape hx.inside hstep, hpool.privData, hpool.headers, hpool.client, ?_⟩
  rcases hlogs with ⟨hhand, -⟩ | ⟨v, env, p, e, -, hc, he, hhand, -⟩
  · rw [hhand]
    exact hx.handed
  · rw [hhand]
    intro k hk
    rcases List.mem_cons.mp hk with rfl | hk
    · exact hpool.headers.of_malloc hc he
    · exact hx.handed k hk

theorem MallocCase.of_grow {s t : Pool} {v : List UInt8} {env : Env} {r : Option HeaderPtr}
    {a b : Addr} (hc : MallocCase s v env r t) (hmiss : s.lookup v = none) (hm : s.buffMask = 4)
    (hlow : s.imemFree < 4) (ha : env.reallocRoot = some a) (hb : env.reallocData = some b) :
    r = some (.buff 0) ∧ t = { (s.expanded env a b).refill 4 with buffMask := 1 } := by
  cases hc with
  | hit i hi _ => simp [hmiss] at hi
  | take _ hlt => omega
  | refill _ _ hge _ => omega
  | grow _ _ _ a' b' ha' hb' =>
      obtain rfl : a' = a := Option.some.inj (ha'.symm.trans ha)
      obtain rfl : b' = b := Option.some.inj (hb'.symm.trans hb)
      exact ⟨rfl, rfl⟩
  | noRoot _ _ _ ha' => simp [ha] at ha'
  | noData _ _ _ a' _ hb' => simp [hb] at hb'

theorem step_malloc_case {s t : Session} {v : List UInt8} {env : Env} (hs : s.pool.Shape)
    (h : step s (.malloc v env) = .ok t) : ∃ r, MallocCase s.pool v env r t.pool := by
  cases stepCase hs h with
  | malloc _ _ p t e _ hc _ => exact ⟨some p, hc⟩
  | null _ _ t hc => exact ⟨none, hc⟩

section Boundary

variable {s : Pool} (hcap : s.imemSize ≤ s.headerCap) (hlt : s.imemFree < s.imemSize)
  (env : Env) (a b : Addr)

include hcap hlt

/-- The header at the old boundary names the first slot that was added. -/
theorem Pool.slotAt_boundary :
    ((s.expanded env a b).refill 4).slotAt s.imemFree = s.imemSize := by
  have hexp := Pool.slotAt_expanded hcap hlt.le env a b (j := s.imemFree) (by omega)
  rw [if_pos hlt, if_neg (lt_irrefl _), if_pos (by omega), Nat.sub_self] at hexp
  exact hexp

/-- Its data pointer stays where it was. -/
theorem Pool.privData_boundary :
    (((s.expanded env a b).refill 4).headers s.imemFree).privData =
      (s.headers s.imemFree).privData := by
  simp [Pool.refill, Pool.expanded, Pool.grow, Pool.reallocData, Pool.reallocRoot, Pool.logged,
    show s.imemFree < s.headerCap by omega]

/-- What is handed out first is the last slot that was added. -/
theorem Pool.buff_boundary :
    (((s.expanded env a b).refill 4).buff 0).iheapIdx = s.imemSize + 15 := by
  have hfirst : (((s.expanded env a b).refill 4).buff 0).iheapIdx =
      (s.expanded env a b).slotAt (s.imemFree + 16 - 1) := Pool.buff_refill (by decide)
  rw [hfirst, Pool.slotAt_expanded hcap hlt.le env a b (by omega), if_neg (by omega),
    if_pos (by omega)]
  omega

end Boundary

/-- The first slot that an expansion adds is named by an old header, whose
data pointer stays where it was. -/
theorem Unmoved.not_asGood {n₀ : ℕ} {tag : Addr} {x y : GrowRun} {v : List UInt8} {env : Env}
    (hu : Ungrown n₀ tag x) (hx : Unmoved n₀ x) (hgrow : ¬NoGrowth x (.malloc v env))
    (hord : Ordinary x (.malloc v env)) (h : growStep x (.malloc v env) = .ok y) :
    ¬AsGood n₀ y := by
  simp only [NoGrowth, not_forall, not_or] at hgrow
  obtain ⟨hmiss, hm, hlow, hroot, hdata⟩ := hgrow
  obtain ⟨a, ha⟩ := Option.ne_none_iff_exists'.mp hroot
  obtain ⟨b, hb⟩ := Option.ne_none_iff_exists'.mp hdata
  obtain ⟨hstep, hlogs⟩ := growStep_ok hu.shape h
  obtain ⟨r, hcase⟩ := step_malloc_case hu.shape hstep
  have hpool := (hcase.of_grow hmiss hm hlow ha hb).2
  have hsize := hu.size
  have hcap := hu.shape.cap
  have hfour := hu.shape.size
  have hlt : x.session.pool.imemFree < x.session.pool.imemSize := by omega
  have hnew : y.session.pool.slotAt x.session.pool.imemFree = n₀ := by
    rw [hpool, ← hsize]
    exact Pool.slotAt_boundary hcap hlt env a b
  have hgrown : y.session.pool.imemSize = n₀ + 16 := by
    rw [hpool, ← hsize]
    rfl
  have hhanded : n₀ ∉ y.handed := by
    rcases hlogs with ⟨hhand, -⟩ | ⟨v', env', p, e, hop, hc, he, hhand, -⟩
    · rw [hhand]
      exact fun hmem ↦ (hx.handed n₀ hmem).ne rfl
    · rw [hhand, List.mem_cons, not_or]
      refine ⟨?_, fun hmem ↦ (hx.handed n₀ hmem).ne rfl⟩
      obtain ⟨rfl, rfl⟩ : v = v' ∧ env = env' := by simpa using hop
      obtain rfl : p = .buff 0 := by simpa using (hc.of_grow hmiss hm hlow ha hb).1
      rw [hpool] at he
      obtain rfl := Pool.deref_refill he
      rw [Pool.buff_boundary hcap hlt]
      omega
  intro hgood
  have hfresh := hgood.fresh x.session.pool.imemFree (by omega) hnew.ge (by omega)
    (by rwa [hnew])
  have hpriv : (y.session.pool.headers x.session.pool.imemFree).privData =
      y.session.pool.pmemData + y.session.pool.imemLen * n₀ := by
    rw [← hnew]
    exact hfresh.privData
  have hold : (y.session.pool.headers x.session.pool.imemFree).privData =
      (x.session.pool.headers x.session.pool.imemFree).privData := by
    rw [hpool]
    exact Pool.privData_boundary hcap hlt env a b
  have hbase : x.session.pool.pmemData ≤ y.session.pool.pmemData := by
    rw [hpool]
    exact hord b hb
  have hlen : y.session.pool.imemLen = x.session.pool.imemLen := by
    rw [hpool]
    rfl
  rw [hold, hx.privData _ hlt, hlen] at hpriv
  have hmul : x.session.pool.imemLen * x.session.pool.imemFree < x.session.pool.imemLen * n₀ :=
    Nat.mul_lt_mul_of_pos_left (by omega) hu.shape.len_pos
  exact absurd hpriv (Nat.add_lt_add_of_le_of_lt hbase hmul).ne

theorem PoolDecl.initial_unmoved (d : PoolDecl) (a b : Addr) :
    Unmoved (d.initial a b).imemSize ⟨⟨d.initial a b, []⟩, [], []⟩ := by
  refine ⟨by simp [Inside], fun _ _ ↦ rfl, ⟨fun _ hi ↦ hi, fun k hk ↦ ?_⟩, ?_, by simp⟩
  · have hk' : k < 4 := hk
    have hsize := le_mmPoolRoundup d.size_pos
    simp only [PoolDecl.initial, Pool.refill, hk', if_true]
    omega
  · intro c hc
    simp [PoolDecl.initial, Pool.refill, PoolDecl.pool] at hc

/-- A grown pool is as good as one created big in a run without a
successful expansion; and in a completed run where `realloc` moves no block
down, only then. -/
theorem asGood_of_noGrowth {d : PoolDecl} {s : Session} (hs : Started d s) (ops : List Op) :
    (EachStep growStep NoGrowth ⟨s, [], []⟩ ops →
      Always growStep (AsGood s.pool.imemSize) ⟨s, [], []⟩ ops) ∧
    ((∃ t, run growStep ⟨s, [], []⟩ ops = .ok t) → EachStep growStep Ordinary ⟨s, [], []⟩ ops →
      Always growStep (AsGood s.pool.imemSize) ⟨s, [], []⟩ ops →
        EachStep growStep NoGrowth ⟨s, [], []⟩ ops) := by
  obtain ⟨a, b, rfl⟩ := hs.eq_initial
  have h0 := d.initial_ungrown a b
  have h1 := d.initial_unmoved a b
  generalize (d.initial a b).imemSize = n₀ at *
  generalize d.pdataType = tag at *
  refine ⟨fun h ↦ ?_, fun ⟨t, ht⟩ hord h ↦ ?_⟩
  · exact (always_of_eachStep (fun _ _ _ hx hop hy ↦ hx.step hop hy) h0 h).mono
      fun _ hx ↦ hx.asGood
  · refine eachStep_of_completed (I := fun x ↦ Ungrown n₀ tag x ∧ Unmoved n₀ x)
      (fun _ _ _ hx hB hop hy ↦ ⟨hx.1.step hop hy, hx.2.step hx.1 hop hB hy⟩) ?_ ⟨h0, h1⟩
      hord h ht
    intro x op y hx hB hy hgood
    cases op with
    | malloc v env =>
        by_contra hgrow
        exact hx.2.not_asGood hx.1 hgrow hB hy hgood
    | free j => exact fun _ ↦ hB
    | init p v env => trivial
    | dup p => trivial

/-! ## Requests that never stop -/

/-- No byte was ever written and whole batches of four were taken. -/
structure Blank (s : Pool) : Prop where
  data : ∀ x, s.data x = 0
  batch : s.imemFree % 4 = 0

/-- How many more slots can be handed out before the pool must grow. -/
def Pool.left (s : Pool) : ℕ := s.imemFree + (4 - s.buffMask)

theorem Blank.lookup {s : Pool} (hs : Blank s) {v : List UInt8} (hv : ∃ x ∈ v, x ≠ 0) :
    s.lookup v = none := by
  obtain ⟨x, hx, hne⟩ := hv
  cases hl : s.lookup v with
  | none => rfl
  | some i =>
      have hbytes := (Pool.lookup_eq_some hl).2.2
      rw [← hbytes] at hx
      obtain ⟨j, -, rfl⟩ := List.mem_map.mp hx
      exact absurd (hs.data _) hne

theorem MallocCase.blank {s t : Pool} {v : List UInt8} {env : Env} {r : Option HeaderPtr}
    (hc : MallocCase s v env r t) (hs : Blank s) (hv : ∃ x ∈ v, x ≠ 0) (hleft : 0 < s.left) :
    Blank t ∧ t.left + 1 = s.left := by
  have hmiss := hs.lookup hv
  have hbatch := hs.batch
  cases hc with
  | hit i hi _ => simp [hmiss] at hi
  | take _ hm =>
      refine ⟨⟨hs.data, hbatch⟩, ?_⟩
      simp only [Pool.left]
      omega
  | refill _ hm hf _ =>
      refine ⟨⟨hs.data, ?_⟩, ?_⟩
      · simp only [Pool.refill]
        omega
      · simp only [Pool.left, Pool.refill]
        omega
  | grow _ hm hlow _ _ _ _ =>
      simp only [Pool.left] at hleft
      omega
  | noRoot _ hm hlow _ =>
      simp only [Pool.left] at hleft
      omega
  | noData _ hm hlow _ _ _ =>
      simp only [Pool.left] at hleft
      omega

theorem growStep_malloc {n₀ : ℕ} {tag : Addr} {x : GrowRun} {v : List UInt8} (env : Env)
    (hu : Ungrown n₀ tag x) (hx : Unmoved n₀ x) (hlen : v.length = x.session.pool.imemLen) :
    ∃ y, growStep x (.malloc v env) = .ok y := by
  have hidx : ∀ i < x.session.pool.imemSize,
      (x.session.pool.headers i).iheapIdx < x.session.pool.imemSize := by
    intro i hi
    rw [hu.size]
    exact hx.headers.proot i hi
  obtain ⟨r, t, hrt⟩ := cocolFuncMalloc_total v env hu.shape hu.free_le hidx
  have hc := mallocCase hu.shape hrt
  cases r with
  | none => simp [growStep, step, hlen, hrt, Except.map]
  | some p =>
      obtain ⟨e, he⟩ := hc.deref hu.shape
      simp [growStep, step, hlen, hrt, grant, he, Except.map]

/-- A pool whose client asks for one value more than it has slots, none of
them found again, is grown and then is not as good. -/
theorem not_asGood_of_exhausted {n₀ m : ℕ} {tag : Addr} {x : GrowRun} {v : List UInt8}
    {env : Env} (hu : Ungrown n₀ tag x) (hx : Unmoved n₀ x) (hblank : Blank x.session.pool)
    (hm : x.session.pool.left = m) (hv : ∃ y ∈ v, y ≠ 0)
    (hlen : v.length = x.session.pool.imemLen) {a b : Addr} (ha : env.reallocRoot = some a)
    (hb : env.reallocData = some b) (hbase : x.session.pool.pmemData ≤ b) :
    ¬Always growStep (AsGood n₀) x (List.replicate (m + 1) (.malloc v env)) := by
  induction m generalizing x with
  | zero =>
      obtain ⟨y, hy⟩ := growStep_malloc env hu hx hlen
      have hmask := hu.shape.mask
      simp only [Pool.left] at hm
      have hgrow : ¬NoGrowth x (.malloc v env) := by
        intro hno
        have hnone := hno (hblank.lookup hv) (by omega) (by omega)
        simp [ha, hb] at hnone
      have hord : Ordinary x (.malloc v env) := by
        intro b' hb'
        obtain rfl : b = b' := Option.some.inj (hb.symm.trans hb')
        exact hbase
      intro h
      exact hx.not_asGood hu hgrow hord hy (h.2 y hy)
  | succ m ih =>
      obtain ⟨y, hy⟩ := growStep_malloc env hu hx hlen
      obtain ⟨r, hc⟩ := step_malloc_case hu.shape (growStep_ok hu.shape hy).1
      have hleft : 0 < x.session.pool.left := by omega
      obtain ⟨hblank', hm'⟩ := hc.blank hblank hv hleft
      have hno : NoGrowth x (.malloc v env) := by
        intro _ hmask hlow
        have hbatch := hblank.batch
        simp only [Pool.left] at hleft
        omega
      have hord : Ordinary x (.malloc v env) := by
        intro b' hb'
        obtain rfl : b = b' := Option.some.inj (hb.symm.trans hb')
        exact hbase
      obtain ⟨-, -, -, hdata, hlen', -⟩ := hc.sizes hno
      intro h
      rw [List.replicate_succ] at h
      exact ih (hu.step hno hy) (hx.step hu hno hord hy) hblank' (by omega)
        (hlen.trans hlen'.symm) (hdata.trans_le hbase) (h.2 y hy)

theorem PoolDecl.initial_blank (d : PoolDecl) (a b : Addr) : Blank (d.initial a b) := by
  refine ⟨fun _ ↦ rfl, ?_⟩
  have hsize := le_mmPoolRoundup d.size_pos
  simp only [PoolDecl.initial, Pool.refill]
  unfold mmPoolRoundup at *
  omega

/-- The character pool, asked 129 times for a value that is never stored. -/
theorem not_asGood_char :
    Started (gCharHeader 0x1000 0x2000) ⟨(gCharHeader 0x1000 0x2000).initial 0x3000 0x4000, []⟩ ∧
    ¬Always growStep (AsGood ((gCharHeader 0x1000 0x2000).initial 0x3000 0x4000).imemSize)
      ⟨⟨(gCharHeader 0x1000 0x2000).initial 0x3000 0x4000, []⟩, [], []⟩
      (List.replicate 129 (.malloc [7, 0, 0, 0] grownEnv)) :=
  ⟨started_initial _ _ _, not_asGood_of_exhausted (m := 128) (PoolDecl.initial_ungrown _ _ _)
    (PoolDecl.initial_unmoved _ _ _) (PoolDecl.initial_blank _ _ _) rfl (by decide) rfl rfl rfl
    (by decide)⟩

/-- A header goes back, and then the pool is asked for more than it has, with
memory for the headers of an expansion and none for its data. -/
theorem asGood_of_noGrowth_char :
    Always growStep (AsGood ((gCharHeader 0x1000 0x2000).initial 0x3000 0x4000).imemSize)
      ⟨⟨(gCharHeader 0x1000 0x2000).initial 0x3000 0x4000, []⟩, [], []⟩
      ([.malloc [7, 0, 0, 0] noMemory, .free 0] ++
        List.replicate 130 (.malloc [7, 0, 0, 0] { grownEnv with reallocData := none })) := by
  apply (asGood_of_noGrowth (started_initial (gCharHeader 0x1000 0x2000) 0x3000 0x4000) _).1
  apply EachStep.append
  · decide +kernel
  · intro t _
    apply EachStep.of_forall
    intro op hop x
    obtain rfl := List.eq_of_mem_replicate hop
    exact fun _ _ _ ↦ .inr rfl

end Cocool.Mmp
