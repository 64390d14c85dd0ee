import Cocool.Mmp.Session

/-!
# What a held handle denotes

A handle points into arrays that the pool rewrites: a refill overwrites
all of `buff`, a free exchanges the slot indices of two headers, and an
expansion moves the used slots in front of the boundary to the end of the
array.  A handle keeps its meaning through a run whose steps leave the
header it points to alone.
-/

namespace Cocool.Mmp

open Session Lib

def Pool.denotes (s : Pool) (p : HeaderPtr) : Option (ℕ × Addr) :=
  (s.deref p).map fun e ↦ (e.iheapIdx, e.privData)

/-- Read now, the handle still names the slot it named when it was handed
out.  Its data pointer is the one it had, or was moved along with the data
block. -/
def Grant.Denotes (s : Pool) (g : Grant) : Prop :=
  ∃ e ∈ s.deref g.ptr, e.iheapIdx = g.slot ∧
    (e.privData = g.priv ∨ e.privData + g.base = g.priv + s.pmemData)

def Stable (s : Session) : Prop := ∀ g ∈ s.live, g.Denotes s.pool

/-- A refill from the boundary `imemFree` would write back what the handle
already denotes. -/
def RefillSafe (s : Pool) (g : Grant) : Prop :=
  match g.ptr with
  | .buff k =>
      (s.headers (s.imemFree - 1 - k)).iheapIdx = g.slot ∧
        s.pmemData + s.imemLen * g.slot = g.priv
  | _ => True

/-- An expansion neither overwrites, relocates nor renames the header. -/
def GrowSafe (s : Pool) (env : Env) (g : Grant) : Prop :=
  ∀ a ∈ env.reallocRoot,
    match g.ptr with
    | .buff _ => env.reallocData = none
    | .proot _ i => a = s.proot ∧ (i < s.imemFree ∨ s.imemFree + 16 ≤ i ∨ env.reallocData = none)
    | .client _ => True

/-- The step leaves the headers behind the handles that stay live alone.
A free touches the header it is given and the one at the boundary, and only
an exchange of equal indices goes unnoticed there. -/
def HandleSafe (s : Session) : Op → Prop
  | .malloc v env =>
      s.pool.lookup v = none → s.pool.buffMask = 4 →
        if s.pool.imemFree < 4 then ∀ g ∈ s.live, GrowSafe s.pool env g
        else ∀ g ∈ s.live, RefillSafe s.pool g
  | .free j =>
      ∀ g ∈ s.live[j]?,
        g.slot = (s.pool.headers s.pool.imemFree).iheapIdx ∨
          ∀ g' ∈ s.live.eraseIdx j,
            g'.ptr ≠ g.ptr ∧ g'.ptr ≠ .proot s.pool.proot s.pool.imemFree
  | _ => True

instance (s : Pool) (g : Grant) : Decidable (g.Denotes s) :=
  inferInstanceAs (Decidable (∃ e ∈ s.deref g.ptr, _))

instance (s : Session) : Decidable (Stable s) :=
  inferInstanceAs (Decidable (∀ g ∈ s.live, g.Denotes s.pool))

instance (s : Pool) (g : Grant) : Decidable (RefillSafe s g) := by
  unfold RefillSafe
  split <;> infer_instance

instance (s : Pool) (env : Env) (g : Grant) : Decidable (GrowSafe s env g) := by
  unfold GrowSafe
  split <;> infer_instance

instance (s : Session) : DecidablePred (HandleSafe s)
  | .malloc _ _ => inferInstanceAs (Decidable (_ → _ → ite _ _ _))
  | .free j => inferInstanceAs (Decidable (∀ g ∈ s.live[j]?, _))
  | .init _ _ _ => isTrue trivial
  | .dup _ => isTrue trivial

def Kept (s : Pool) (g : Grant) : Prop := s.denotes g.ptr = some (g.slot, g.priv)

theorem Kept.denotes {s : Pool} {g : Grant} (h : Kept s g) : g.Denotes s := by
  obtain ⟨e, he, heq⟩ := Option.map_eq_some_iff.mp h
  simp only [Prod.mk.injEq] at heq
  exact ⟨e, he, heq.1, .inl heq.2⟩

theorem kept_of_deref {s : Pool} {p : HeaderPtr} {e : CocolTypeHeader} (base : Addr)
    (he : s.deref p = some e) : Kept s ⟨p, e.iheapIdx, e.privData, base⟩ := by
  simp [Kept, Pool.denotes, he]

namespace Pool

theorem denotes_bumpRef (s : Pool) (i : ℕ) (p : HeaderPtr) :
    (s.bumpRef i).denotes p = s.denotes p := by
  cases p with
  | buff k => rfl
  | client c => rfl
  | proot base j =>
      have hhead : ((s.bumpRef i).headers j).iheapIdx = (s.headers j).iheapIdx ∧
          ((s.bumpRef i).headers j).privData = (s.headers j).privData := by
        by_cases hji : j = i
        · subst hji
          simp [bumpRef]
        · simp [bumpRef, hji]
      by_cases h : base = s.proot ∧ j < s.headerCap
      · have h' : base = (s.bumpRef i).proot ∧ j < (s.bumpRef i).headerCap := h
        simp only [denotes, deref, if_pos h, if_pos h', Option.map_some, hhead]
      · have h' : ¬(base = (s.bumpRef i).proot ∧ j < (s.bumpRef i).headerCap) := h
        simp only [denotes, deref, if_neg h, if_neg h']

theorem denotes_dupped {s : Pool} {p : HeaderPtr} {x : ℕ × Addr} (e : CocolTypeHeader)
    (h : s.denotes p = some x) : (s.dupped e).denotes p = some x := by
  cases p with
  | buff k => exact h
  | proot base j => exact h
  | client c =>
      simp only [denotes, deref, Option.map_eq_some_iff] at h
      obtain ⟨e', he', rfl⟩ := h
      split_ifs at he' with hc
      simp only [Option.some.injEq] at he'
      subst he'
      have hlt : c < s.clientNum + 1 := by omega
      have hne : c ≠ s.clientNum := by omega
      simp [denotes, deref, dupped, hlt, hne]

/-- Freeing `*p` changes no header but the one behind `p` and the one at
the boundary. -/
theorem deref_freed {s : Pool} {p q : HeaderPtr} (e : CocolTypeHeader) (hqp : q ≠ p)
    (hqf : q ≠ .proot s.proot s.imemFree) (hp : ∀ base i, p = .proot base i → base = s.proot) :
    (s.freed p e).deref q = s.deref q := by
  cases q with
  | buff k =>
      cases p with
      | buff l =>
          have hkl : k ≠ l := fun h ↦ hqp (h ▸ rfl)
          simp [freed, writeIdx, deref, hkl]
      | proot base i => rfl
      | client c => rfl
  | client c =>
      cases p with
      | client l =>
          have hcl : c ≠ l := fun h ↦ hqp (h ▸ rfl)
          simp [freed, writeIdx, deref, hcl]
      | proot base i => rfl
      | buff k => rfl
  | proot base i =>
      by_cases hbase : base = s.proot
      · subst hbase
        have hif : i ≠ s.imemFree := fun h ↦ hqf (h ▸ rfl)
        cases p with
        | buff k => simp [freed, writeIdx, deref, hif]
        | client c => simp [freed, writeIdx, deref, hif]
        | proot base' l =>
            have hil : i ≠ l := fun h ↦ hqp (by rw [h, hp base' l rfl])
            simp [freed, writeIdx, deref, hif, hil]
      · cases p <;> simp [freed, writeIdx, deref, hbase]

end Pool

theorem Pool.grownIdx_of_outside {s : Pool} {m i : ℕ} (hi : i < s.imemSize)
    (hout : i < s.imemFree ∨ s.imemFree + m ≤ i) : s.grownIdx m i = (s.headers i).iheapIdx := by
  unfold grownIdx
  split_ifs <;> first | rfl | omega

theorem Kept.refill {s : Pool} {g : Grant} (hg : Kept s g) (hsafe : RefillSafe s g) :
    Kept { s.refill 4 with buffMask := 1 } g := by
  obtain ⟨p, slot, priv, base⟩ := g
  cases p with
  | client c => exact hg
  | proot b i => exact hg
  | buff k =>
      have hk : k < 4 := by
        by_contra hk
        simp [Kept, Pool.denotes, Pool.deref, mmPoolBuff, hk] at hg
      obtain ⟨hslot, hpriv⟩ := hsafe
      simp only at hslot hpriv
      simp [Kept, Pool.denotes, Pool.deref, Pool.refill, mmPoolBuff, hk, hslot, hpriv]

/-- A header array that grows where it is keeps its entries. -/
theorem Kept.reallocRoot {s : Pool} {g : Grant} (hs : s.Shape) (hg : Kept s g) (env : Env)
    {a : Addr} (hsafe : ∀ base i, g.ptr = .proot base i → a = s.proot ∧ i < s.imemSize) :
    Kept (s.reallocRoot env a) g := by
  obtain ⟨p, slot, priv, base⟩ := g
  cases p with
  | client c => exact hg
  | buff k => exact hg
  | proot b i =>
      obtain ⟨rfl, hi⟩ := hsafe b i rfl
      have hcap := hs.cap
      have hi' : i < s.headerCap := by omega
      have hi'' : i < s.imemSize + 16 := by omega
      simpa [Kept, Pool.denotes, Pool.deref, Pool.reallocRoot, Pool.logged, mmPoolExpandNum,
        hi', hi''] using hg

theorem Kept.expanded {s : Pool} {g : Grant} (hs : s.Shape) (hg : Kept s g) (env : Env)
    {a b : Addr} (hbuff : ∀ k, g.ptr ≠ .buff k)
    (hsafe : ∀ base i, g.ptr = .proot base i →
      (a = s.proot ∧ i < s.imemSize) ∧ (i < s.imemFree ∨ s.imemFree + 16 ≤ i)) :
    Kept { (s.expanded env a b).refill 4 with buffMask := 1 } g := by
  have hroot := hg.reallocRoot hs env fun base i hp ↦ (hsafe base i hp).1
  obtain ⟨p, slot, priv, base⟩ := g
  cases p with
  | client c => exact hg
  | buff k => exact absurd rfl (hbuff k)
  | proot b' i =>
      obtain ⟨⟨-, hi⟩, hout⟩ := hsafe b' i rfl
      have hidx : ((s.expanded env a b).headers i).iheapIdx =
          ((s.reallocRoot env a).headers i).iheapIdx :=
        Pool.grownIdx_of_outside
          (s := { (s.reallocRoot env a).reallocData env b with
            imemUsed := s.imemUsed + 16 }) (m := 16) hi hout
      have hpriv : ((s.expanded env a b).headers i).privData =
          ((s.reallocRoot env a).headers i).privData := rfl
      have hderef : ({ (s.expanded env a b).refill 4 with buffMask := 1 } : Pool).deref
            (.proot b' i) =
          if b' = (s.reallocRoot env a).proot ∧ i < (s.reallocRoot env a).headerCap then
            some ((s.expanded env a b).headers i) else none := rfl
      simp only [Kept, Pool.denotes, hderef]
      simp only [Kept, Pool.denotes, Pool.deref] at hroot
      split_ifs at hroot ⊢
      · simpa only [Option.map_some, hidx, hpriv] using hroot
      · exact hroot

theorem MallocCase.kept {s t : Pool} {v : List UInt8} {env : Env} {r : Option HeaderPtr}
    (h : MallocCase s v env r t) (hs : s.Shape) {g : Grant} (hg : Kept s g)
    (hlt : ∀ base i, g.ptr = .proot base i → i < s.imemSize)
    (hgrow : s.lookup v = none → s.buffMask = 4 → s.imemFree < 4 → GrowSafe s env g)
    (hrefill : s.lookup v = none → s.buffMask = 4 → ¬s.imemFree < 4 → RefillSafe s g) :
    Kept t g := by
  cases h with
  | hit i _ _ => exact (s.denotes_bumpRef i g.ptr).trans hg
  | take _ _ => exact hg
  | noRoot _ _ _ _ => exact hg
  | refill hmiss hm hf _ => exact hg.refill (hrefill hmiss hm (by omega))
  | noData hmiss hm hf a ha hb =>
      have hsafe := hgrow hmiss hm hf a ha
      refine hg.reallocRoot hs env fun base i hp ↦ ?_
      simp only [hp] at hsafe
      exact ⟨hsafe.1, hlt base i hp⟩
  | grow hmiss hm hf a b ha hb =>
      have hsafe := hgrow hmiss hm hf a ha
      refine hg.expanded hs env (fun k hp ↦ ?_) fun base i hp ↦ ?_
      · simp [hp, hb] at hsafe
      · simp only [hp] at hsafe
        exact ⟨⟨hsafe.1, hlt base i hp⟩, by simpa [hb] using hsafe.2⟩

/-! ## Handles into the header array -/

def Inside (s : Session) : Prop :=
  ∀ g ∈ s.live, ∀ base i, g.ptr = .proot base i → i < s.pool.imemSize

theorem MallocCase.size_le {s t : Pool} {v : List UInt8} {env : Env} {r : Option HeaderPtr}
    (h : MallocCase s v env r t) : s.imemSize ≤ t.imemSize := by
  cases h <;> simp [Pool.bumpRef, Pool.refill, Pool.expanded, Pool.grow, Pool.reallocRoot,
    Pool.reallocData, Pool.logged]

theorem MallocCase.inside {s t : Pool} {v : List UInt8} {env : Env} {p : HeaderPtr}
    (h : MallocCase s v env (some p) t) (base : Addr) (i : ℕ) (hp : p = .proot base i) :
    i < t.imemSize := by
  cases h with
  | hit j hj _ =>
      obtain ⟨rfl, rfl⟩ : s.proot = base ∧ j = i := by simpa using hp
      exact (Pool.lookup_eq_some hj).2.1
  | take _ _ => cases hp
  | refill _ _ _ _ => cases hp
  | grow _ _ _ _ _ _ _ => cases hp

theorem Pool.freed_imemSize (s : Pool) (p : HeaderPtr) (e : CocolTypeHeader) :
    (s.freed p e).imemSize = s.imemSize := by
  cases p <;> rfl

theorem step_inside {s t : Session} {op : Op} (hs : s.pool.Shape) (hin : Inside s)
    (h : step s op = .ok t) : Inside t := by
  cases stepCase hs h with
  | malloc v env p t e _ hc _ =>
      intro g hg
      rcases List.mem_cons.mp hg with rfl | hg
      · exact hc.inside
      · exact fun base i hp ↦ (hin g hg base i hp).trans_le hc.size_le
  | null v env t hc => exact fun g hg base i hp ↦ (hin g hg base i hp).trans_le hc.size_le
  | init p v env e _ _ _ _ => exact hin
  | free j g e hg _ _ =>
      intro g' hg' base i hp
      rw [s.pool.freed_imemSize]
      exact hin g' (List.mem_of_mem_eraseIdx hg') base i hp
  | dup p e _ =>
      intro g hg
      rcases List.mem_cons.mp hg with rfl | hg
      · intro base i hp
        cases hp
      · exact hin g hg

/-! ## Stability -/

structure StableInv (s : Session) : Prop where
  shape : s.pool.Shape
  inside : Inside s
  kept : ∀ g ∈ s.live, Kept s.pool g

theorem kept_free {s : Session} (hs : StableInv s) {j : ℕ} {g : Grant} {e : CocolTypeHeader}
    (hop : HandleSafe s (.free j)) (hg : s.live[j]? = some g)
    (he : s.pool.deref g.ptr = some e) {g' : Grant} (hg' : g' ∈ s.live.eraseIdx j) :
    Kept (s.pool.freed g.ptr e) g' := by
  have hkept := hs.kept g' (List.mem_of_mem_eraseIdx hg')
  have hmem : g ∈ s.live := List.mem_of_getElem? hg
  have hslot : e.iheapIdx = g.slot := by
    have hown := hs.kept g hmem
    simp only [Kept, Pool.denotes, he, Option.map_some, Option.some.injEq, Prod.mk.injEq] at hown
    exact hown.1
  rcases hop g hg with heq | hother
  · rw [Pool.freed_of_eq he (hslot.trans heq)]
    simpa only [Kept, Pool.denotes, s.pool.deref_released] using hkept
  · obtain ⟨hne, hnf⟩ := hother g' hg'
    have hbase : ∀ base i, g.ptr = .proot base i → base = s.pool.proot := by
      intro base i hp
      rw [hp] at he
      simp only [Pool.deref] at he
      split_ifs at he with h
      exact h.1
    simpa only [Kept, Pool.denotes, Pool.deref_freed e hne hnf hbase] using hkept

theorem step_stableInv {s t : Session} {op : Op} (hs : StableInv s) (hop : HandleSafe s op)
    (h : step s op = .ok t) : StableInv t := by
  refine ⟨step_shape hs.shape h, step_inside hs.shape hs.inside h, ?_⟩
  cases stepCase hs.shape h with
  | malloc v env p t e _ hc he =>
      intro g hg
      rcases List.mem_cons.mp hg with rfl | hg
      · exact kept_of_deref _ he
      · exact hc.kept hs.shape (hs.kept g hg) (hs.inside g hg)
          (fun h₁ h₂ h₃ ↦ (if_pos h₃).mp (hop h₁ h₂) g hg)
          (fun h₁ h₂ h₃ ↦ (if_neg h₃).mp (hop h₁ h₂) g hg)
  | null v env t hc =>
      intro g hg
      exact hc.kept hs.shape (hs.kept g hg) (hs.inside g hg)
        (fun h₁ h₂ h₃ ↦ (if_pos h₃).mp (hop h₁ h₂) g hg)
        (fun h₁ h₂ h₃ ↦ (if_neg h₃).mp (hop h₁ h₂) g hg)
  | init p v env e _ _ _ _ => exact hs.kept
  | free j g e hg _ he => exact fun g' hg' ↦ kept_free hs hop hg he hg'
  | dup p e he =>
      intro g hg
      rcases List.mem_cons.mp hg with rfl | hg
      · apply kept_of_deref
        simp [Pool.deref, Pool.dupped]
      · exact Pool.denotes_dupped e (hs.kept g hg)

theorem PoolDecl.initial_stableInv (d : PoolDecl) (a b : Addr) :
    StableInv ⟨d.initial a b, []⟩ :=
  ⟨d.initial_shape a b, by simp [Inside], by simp⟩

theorem StableInv.stable {s : Session} (hs : StableInv s) : Stable s :=
  fun g hg ↦ (hs.kept g hg).denotes

theorem always_stableInv {d : PoolDecl} {s : Session} (hs : Started d s) {ops : List Op}
    (h : EachStep step HandleSafe s ops) : Always step StableInv s ops := by
  obtain ⟨a, b, rfl⟩ := hs.eq_initial
  exact always_of_eachStep (fun _ _ _ ↦ step_stableInv) (d.initial_stableInv a b) h

theorem stable_of_handleSafe {d : PoolDecl} {s : Session} (hs : Started d s) {ops : List Op}
    (h : EachStep step HandleSafe s ops) : Always step Stable s ops :=
  (always_stableInv hs h).mono fun _ ↦ StableInv.stable

/-- Five values without a free: the refill for the fifth overwrites the
header behind the first handle. -/
theorem stable_refill :
    Started (gCharHeader 0x1000 0x2000)
      ⟨(gCharHeader 0x1000 0x2000).initial 0x3000 0x4000, []⟩ ∧
    ¬Always step Stable ⟨(gCharHeader 0x1000 0x2000).initial 0x3000 0x4000, []⟩
      ((List.range 5).flatMap fun i ↦ [.malloc [0, 0, 0, UInt8.ofNat (i + 1)] noMemory,
        .init (.buff (i % 4)) [0, 0, 0, UInt8.ofNat (i + 1)] noMemory]) :=
  ⟨started_initial _ _ _, by decide +kernel⟩

theorem stable_of_handleSafe_char :
    Always step Stable ⟨(gCharHeader 0x1000 0x2000).initial 0x3000 0x4000, []⟩
      [.malloc [0, 0, 0, 7] noMemory, .init (.buff 0) [0, 0, 0, 7] noMemory,
        .malloc [0, 0, 0, 8] noMemory, .free 0] :=
  stable_of_handleSafe (started_initial (gCharHeader 0x1000 0x2000) 0x3000 0x4000)
    (by decide +kernel)

end Cocool.Mmp
