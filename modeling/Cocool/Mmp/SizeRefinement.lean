import Cocool.Mmp.Sizes

/-!
# The pool and its sizes in machine arithmetic

The pool of the other modules counts in natural numbers and takes the
allocator's answers as given.  When the answers are those to the requests
that the machine really makes, its sizes are the machine's.
-/

namespace Cocool.Mmp

open Lib

/-- The answers during a call on the pool `s`, each to the request that
the pool makes at that place. -/
def Memory.env (m : Memory) (s : Pool) (rootTail : ℕ → CocolTypeHeader) (dataTail : ℕ → UInt8) :
    Env where
  mallocRoot :=
    (cocolMalloc m.mallocRoot (headersLen s.rounded.imemSize)).map Prod.fst
  mallocData :=
    (cocolMalloc m.mallocData (s.rounded.imemSize * s.rounded.imemLen)).map Prod.fst
  reallocRoot :=
    (cocolRealloc m.reallocRoot (headersLen (s.imemSize + mmPoolExpandNum))).map Prod.fst
  rootTail := rootTail
  reallocData :=
    (cocolRealloc m.reallocData ((s.imemSize + mmPoolExpandNum) * s.imemLen)).map Prod.fst
  dataTail := dataTail

/-- The pool has the machine's sizes, and its arrays end inside of the
blocks. -/
structure Matches (s : Pool) (z : PoolSizes) : Prop where
  imemSize : z.imemSize = s.imemSize
  imemLen : z.imemLen = s.imemLen
  binitialized : z.binitialized = s.binitialized
  headerCap : s.binitialized = true → ∀ n ∈ z.rootBytes, s.headerCap * headerBytes ≤ n
  dataCap : s.binitialized = true → ∀ n ∈ z.dataBytes, s.dataCap ≤ n

variable {s t : Pool} {z : PoolSizes} {m : Memory} {rootTail : ℕ → CocolTypeHeader}
  {dataTail : ℕ → UInt8} {v : List UInt8} {r : Option HeaderPtr}

/-- A change that leaves the sizes and the capacities alone. -/
theorem Matches.transport (h : Matches s z) (hsize : t.imemSize = s.imemSize)
    (hlen : t.imemLen = s.imemLen) (hinit : t.binitialized = s.binitialized)
    (hheader : t.headerCap = s.headerCap) (hdata : t.dataCap = s.dataCap) : Matches t z := by
  refine ⟨?_, ?_, ?_, ?_, ?_⟩
  · rw [hsize]
    exact h.imemSize
  · rw [hlen]
    exact h.imemLen
  · rw [hinit]
    exact h.binitialized
  · rw [hinit, hheader]
    exact h.headerCap
  · rw [hinit, hdata]
    exact h.dataCap

/-! ## One call -/

/-- A call on an initialised pool expands the machine's sizes at most
once. -/
theorem MallocCase.sizeRun (hc : MallocCase s v (m.env s rootTail dataTail) r t) (hs : s.Shape)
    (hm : Matches s z) (hz : Sized z) :
    ∃ y, (y = z ∨ sizeStep z (.expand m) = .ok y) ∧ Matches t y := by
  have hinit : z.binitialized = true := hm.binitialized.trans hs.init
  have hstep : ∀ {b y}, mmPoolExpandSizes z m = .ok (b, y) → sizeStep z (.expand m) = .ok y := by
    intro b y h
    simp [sizeStep, hinit, h, Except.map]
  -- what the machine asks for
  have hroot : ((cocolRealloc m.reallocRoot (headersLen (z.imemSize + mmPoolExpandNum))).map
      Prod.fst) = (m.env s rootTail dataTail).reallocRoot := by
    rw [hm.imemSize]
    rfl
  have hdata : ((cocolRealloc m.reallocData ((z.imemSize + mmPoolExpandNum) * z.imemLen)).map
      Prod.fst) = (m.env s rootTail dataTail).reallocData := by
    rw [hm.imemSize, hm.imemLen]
    rfl
  cases hc with
  | hit i _ _ => exact ⟨z, .inl rfl, hm.transport rfl rfl rfl rfl rfl⟩
  | take _ _ => exact ⟨z, .inl rfl, hm.transport rfl rfl rfl rfl rfl⟩
  | refill _ _ _ _ => exact ⟨z, .inl rfl, hm.transport rfl rfl rfl rfl rfl⟩
  | noRoot _ _ _ _ => exact ⟨z, .inl rfl, hm⟩
  | grow _ _ _ a b ha hb =>
      rcases hz.expand_cases m with
        ⟨hnone, -⟩ | ⟨a', n, -, -, hn, ⟨hnone, -⟩ | ⟨b', k, -, hk, heq⟩⟩
      · rw [ha, hnone] at hroot
        simp at hroot
      · rw [hb, hnone] at hdata
        simp at hdata
      · refine ⟨_, .inr (hstep heq), ?_, hm.imemLen, hm.binitialized, ?_, ?_⟩
        · simp only [hm.imemSize]
          rfl
        · rintro - d ⟨⟩
          rw [hm.imemSize] at hn
          have hcap : (s.imemSize + mmPoolExpandNum) * headerBytes ≤ n := by exact_mod_cast hn.ge
          exact hcap
        · rintro - d ⟨⟩
          rw [hm.imemSize, hm.imemLen] at hk
          have hcap : (s.imemSize + mmPoolExpandNum) * s.imemLen ≤ k := by exact_mod_cast hk.ge
          exact hcap
  | noData _ _ _ a ha hb =>
      rcases hz.expand_cases m with
        ⟨hnone, -⟩ | ⟨a', n, -, -, hn, ⟨-, heq⟩ | ⟨b', k, hsome, -⟩⟩
      · rw [ha, hnone] at hroot
        simp at hroot
      · refine ⟨_, .inr (hstep heq), hm.imemSize, hm.imemLen, hm.binitialized, ?_, hm.dataCap⟩
        rintro - d ⟨⟩
        rw [hm.imemSize] at hn
        have hcap : (s.imemSize + mmPoolExpandNum) * headerBytes ≤ n := by exact_mod_cast hn.ge
        exact hcap
      · rw [hb, hsome] at hdata
        simp at hdata

/-- The machine rounds as the pool does, where nothing overflows. -/
theorem mmPoolRoundupInt_ok {a : ℕ} {x : ℤ} (h : mmPoolRoundupInt a 4 = .ok x) :
    x = mmPoolRoundup a 4 := by
  obtain ⟨b, hb, h⟩ := bind_eq_ok h
  obtain ⟨c, hc, h⟩ := bind_eq_ok h
  have hfour : b = a + 4 := by
    unfold addInt at hb
    split at hb
    · exact (Except.ok.inj hb).symm
    · simp at hb
  have hthree : c = b + -1 := by
    unfold addInt at hc
    split at hc
    · exact (Except.ok.inj hc).symm
    · simp at hc
  have hx : c - c % 4 = x := Except.ok.inj h
  unfold mmPoolRoundup
  omega

/-- The header count of a declared pool is a multiple of four already. -/
theorem Matches.rounded (hm : Matches s z) (hz : Sized z) : s.rounded.imemSize = s.imemSize := by
  have hstep := hz.step
  rw [hm.imemSize] at hstep
  have hpos : 16 ∣ s.imemSize := by exact_mod_cast hstep
  simp only [Pool.rounded, mmPoolRoundup]
  omega

/-- A call on an uninitialised pool initialises the machine's sizes. -/
theorem Matches.uninit (hm : Matches s z) (hz : Sized z) (hinit : s.binitialized = false)
    (h : cocolFuncMalloc s v (m.env s rootTail dataTail) = .ok (r, t)) :
    ∃ y, sizeStep z (.init m) = .ok y ∧ Matches t y := by
  have hzinit : z.binitialized = false := hm.binitialized.trans hinit
  have hsize := hm.rounded hz
  have hpos : 0 < s.imemSize := by
    have := hz.size_pos
    rw [hm.imemSize] at this
    exact_mod_cast this
  have hstep : ∀ {b y}, mmPoolInitSizes z m = .ok (b, y) → sizeStep z (.init m) = .ok y := by
    intro b y h
    simp [sizeStep, h, Except.map]
  obtain ⟨len, hlen, -, -, hcases⟩ := hz.init_cases hzinit m
  rw [hm.imemLen] at hlen
  have hlen' : len = s.rounded.imemLen := mmPoolRoundupInt_ok hlen
  have hroot : ((cocolMalloc m.mallocRoot (headersLen z.imemSize)).map Prod.fst) =
      (m.env s rootTail dataTail).mallocRoot := by
    rw [hm.imemSize, ← hsize]
    rfl
  have hdata : ((cocolMalloc m.mallocData (z.imemSize * len)).map Prod.fst) =
      (m.env s rootTail dataTail).mallocData := by
    rw [hm.imemSize, ← hsize, hlen']
    rfl
  have hsizes : z.imemSize = (s.rounded.imemSize : ℤ) := by rw [hsize, hm.imemSize]
  rcases cocolFuncMalloc_uninit hinit hpos v (m.env s rootTail dataTail) with
    ⟨hnone, heq⟩ | ⟨a, ha, hnone, heq⟩ | ⟨a, b, ha, hb, heq⟩
  · rw [heq] at h
    obtain ⟨-, rfl⟩ := Prod.mk.inj (Except.ok.inj h)
    rcases hcases with ⟨-, hrun⟩ | ⟨a, n, hsome, -⟩
    · refine ⟨_, hstep hrun, hsizes, hlen', hm.binitialized, ?_, ?_⟩
      · exact fun hyes ↦ absurd (hinit.symm.trans hyes) (by simp)
      · exact fun hyes ↦ absurd (hinit.symm.trans hyes) (by simp)
    · rw [hnone, hsome] at hroot
      simp at hroot
  · rw [heq] at h
    obtain ⟨-, rfl⟩ := Prod.mk.inj (Except.ok.inj h)
    rcases hcases with ⟨hno, -⟩ | ⟨a', n, -, -, ⟨-, hrun⟩ | ⟨b', k, hsome, -⟩⟩
    · rw [ha, hno] at hroot
      simp at hroot
    · refine ⟨_, hstep hrun, hsizes, hlen', hm.binitialized, ?_, ?_⟩
      · exact fun hyes ↦ absurd (hinit.symm.trans hyes) (by simp)
      · exact fun hyes ↦ absurd (hinit.symm.trans hyes) (by simp)
    · rw [hnone, hsome] at hdata
      simp at hdata
  · have hlenPos : 0 < s.imemLen := by
      have := hz.len_pos
      rw [hm.imemLen] at this
      exact_mod_cast this
    rw [heq] at h
    rcases hcases with ⟨hno, -⟩ | ⟨a', n, -, hn, ⟨hno, -⟩ | ⟨b', k, -, hk, hrun⟩⟩
    · rw [ha, hno] at hroot
      simp at hroot
    · rw [hb, hno] at hdata
      simp at hdata
    · rw [hsizes] at hn hk
      rw [hlen'] at hk
      have hmatch : Matches (s.inited a b) { z with
          imemLen := len, rootBytes := some n, dataBytes := some k, binitialized := true } := by
        refine ⟨hsizes, hlen', rfl, ?_, ?_⟩
        · rintro - d ⟨⟩
          have hcap : s.rounded.imemSize * headerBytes ≤ n := by exact_mod_cast hn.ge
          exact hcap
        · rintro - d ⟨⟩
          have hcap : s.rounded.imemSize * s.rounded.imemLen ≤ k := by exact_mod_cast hk.ge
          exact hcap
      refine ⟨_, hstep hrun, ?_⟩
      -- right after the initialisation the buffer is full
      have hmask : (s.inited a b).buffMask = 0 := rfl
      cases mallocCase (inited_shape hpos hlenPos a b) h with
      | hit i _ _ => exact hmatch.transport rfl rfl rfl rfl rfl
      | take _ _ => exact hmatch.transport rfl rfl rfl rfl rfl
      | refill _ hfour _ _ => simp [hmask] at hfour
      | grow _ hfour _ _ _ _ _ => simp [hmask] at hfour
      | noRoot _ hfour _ _ => simp [hmask] at hfour
      | noData _ hfour _ _ _ _ => simp [hmask] at hfour

/-! ## Runs -/

/-- A `malloc` request of a client, with the memory there is for it. -/
structure MachineOp where
  v : List UInt8
  memory : Memory
  rootTail : ℕ → CocolTypeHeader
  dataTail : ℕ → UInt8

def machineStep (s : Pool) (op : MachineOp) : Except Fault Pool :=
  mallocStep s (op.v, op.memory.env s op.rootTail op.dataTail)

/-- In every run of requests on a declared pool its sizes are those that
the machine computes, and its arrays end inside of the blocks obtained. -/
theorem machine_sizes (p : DeclaredPool) (self pdataType : Addr) (ops : List MachineOp) :
    Always machineStep (fun s ↦ ∃ z, Matches s z ∧ Sufficient z)
      (p.decl self pdataType).pool ops := by
  have hall : Always machineStep (fun s ↦ Ready s ∧ ∃ z, Matches s z ∧ Sized z)
      (p.decl self pdataType).pool ops := by
    apply always_of_step
    · rintro s op t ⟨hs, z, hm, hz⟩ h
      have hready : Ready t := hs.step h
      obtain ⟨r, hr⟩ := mallocStep_ok h
      refine ⟨hready, ?_⟩
      cases hinit : s.binitialized with
      | true =>
          have hcase := mallocCase (hs.shape hinit) hr
          obtain ⟨y, hy, hmatch⟩ := hcase.sizeRun (hs.shape hinit) hm hz
          rcases hy with rfl | hy
          · exact ⟨y, hmatch, hz⟩
          · exact ⟨y, hmatch, sizeStep_sized hz hy⟩
      | false =>
          obtain ⟨y, hy, hmatch⟩ := hm.uninit hz hinit hr
          exact ⟨y, hmatch, sizeStep_sized hz hy⟩
    · refine ⟨?_, _, ?_, sized_declared p self pdataType⟩
      · refine ⟨fun h ↦ absurd h (by simp [PoolDecl.pool]), fun _ ↦ ?_⟩
        exact ⟨(p.decl self pdataType).size_pos, (p.decl self pdataType).len_pos⟩
      · refine ⟨rfl, rfl, rfl, ?_, ?_⟩
        · exact fun h ↦ absurd h (by simp [PoolDecl.pool])
        · exact fun h ↦ absurd h (by simp [PoolDecl.pool])
  apply hall.mono
  rintro s ⟨-, z, hm, hz⟩
  exact ⟨z, hm, hz.sufficient⟩

end Cocool.Mmp
