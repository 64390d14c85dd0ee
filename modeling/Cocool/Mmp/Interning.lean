import Cocool.Mmp.Coherence

/-!
# Interning

The pool is a table of values: each value is to have one slot and each slot
one value.  A step asks for a value and stores it through the handle it
gets; the history keeps which bytes of the data block each step was given.
-/

namespace Cocool.Mmp

open Lib

/-- Equal values share a place and different values do not. -/
def Exact {α β : Type*} (given : List (α × β)) : Prop :=
  ∀ x ∈ given, ∀ y ∈ given, x.2 = y.2 ↔ x.1 = y.1

instance {α β : Type*} [DecidableEq α] [DecidableEq β] (given : List (α × β)) :
    Decidable (Exact given) :=
  inferInstanceAs (Decidable (∀ x ∈ given, ∀ y ∈ given, _))

theorem Exact.concat {α β : Type*} {given : List (α × β)} (h : Exact given) {v : α} {o : β}
    (hnew : (v, o) ∈ given ∨ ∀ x ∈ given, x.1 ≠ v ∧ x.2 ≠ o) : Exact (given ++ [(v, o)]) := by
  have hmem : ∀ {x}, x ∈ given ++ [(v, o)] ↔ x ∈ given ∨ x = (v, o) := by simp
  have hpair : ∀ x ∈ given, x.2 = o ↔ x.1 = v := by
    intro x hx
    rcases hnew with hold | hfresh
    · exact h x hx (v, o) hold
    · exact ⟨fun heq ↦ absurd heq (hfresh x hx).2, fun heq ↦ absurd heq (hfresh x hx).1⟩
  intro x hx y hy
  rcases hmem.mp hx with hx | rfl <;> rcases hmem.mp hy with hy | rfl
  · exact h x hx y hy
  · exact hpair x hx
  · rw [eq_comm, hpair y hy, eq_comm]
  · simp

structure Interning where
  pool : Pool
  given : List (List UInt8 × ℕ)

namespace Interning

/-- `cocol_X_malloc(v)` and, through the handle it returns, `cocol_X_init`. -/
def step (s : Interning) (a : List UInt8 × Env) : Except Fault Interning :=
  if a.1.length = s.pool.imemLen then
    match cocolFuncMalloc s.pool a.1 a.2 with
    | .error e => .error e
    | .ok (none, _) => .error .pointer
    | .ok (some p, t) =>
        match t.deref p with
        | none => .error .pointer
        | some e => (cocolFuncInit t p a.1 a.2).map fun u ↦
            ⟨u, s.given ++ [(a.1, e.privData - t.pmemData)]⟩
  else .error .client

def Started (d : PoolDecl) (s : Interning) : Prop :=
  ∃ env, mmPoolInit d.pool env = .ok (true, s.pool) ∧ s.given = []

/-- Steps share a slot exactly when they asked for the same value, and each
slot holds the value it was given for. -/
structure Interned (s : Interning) : Prop where
  exact : Exact s.given
  holds : ∀ x ∈ s.given, s.pool.readData x.2 s.pool.imemLen = x.1

/-- What a hit returns is coherent, and it is the slot the value was given
before, if it was; an entry of `buff` handed out is not given yet; and the
blocks grow when they have to. -/
def InternSafe (s : Interning) (a : List UInt8 × Env) : Prop :=
  a.1.length = s.pool.imemLen ∧
  (∀ i ∈ s.pool.lookup a.1, (s.pool.headers i).Coherent s.pool ∧
    ((a.1, s.pool.imemLen * s.pool.slotAt i) ∈ s.given ∨ ∀ x ∈ s.given, x.1 ≠ a.1)) ∧
  (s.pool.lookup a.1 = none →
    if s.pool.buffMask < 4 then
      ∀ x ∈ s.given, x.2 ≠ s.pool.imemLen * (s.pool.buff s.pool.buffMask).iheapIdx
    else s.pool.imemFree < 4 → a.2.reallocRoot ≠ none ∧ a.2.reallocData ≠ none)

instance (s : Interning) (a : List UInt8 × Env) : Decidable (InternSafe s a) := by
  unfold InternSafe
  infer_instance

end Interning

open Interning

/-! ## The bytes of the slots -/

namespace Pool

theorem readData_writeData (s : Pool) (off : ℕ) (v : List UInt8) :
    (s.writeData off v).readData off v.length = v := by
  refine List.ext_getElem (by simp [readData]) fun j hj hj' ↦ ?_
  have hin : off ≤ off + j ∧ off + j < off + v.length := by omega
  simp [readData, writeData, hj']

theorem slotBytes_writeData {s : Pool} {k l : ℕ} {v : List UInt8} (hv : v.length = s.imemLen)
    (hkl : k ≠ l) : (s.writeData (s.imemLen * l) v).slotBytes k = s.slotBytes k := by
  have hlen : (s.writeData (s.imemLen * l) v).imemLen = s.imemLen := rfl
  simp only [slotBytes, readData, hlen]
  refine List.map_congr_left fun j hj ↦ ?_
  have hj' : j < s.imemLen := List.mem_range.mp hj
  have hout : ¬(s.imemLen * l ≤ s.imemLen * k + j ∧
      s.imemLen * k + j < s.imemLen * l + v.length) := by
    rcases Nat.lt_or_gt_of_ne hkl with hlt | hlt
    · have hmul := Nat.mul_le_mul_left s.imemLen (Nat.succ_le_of_lt hlt)
      rw [Nat.mul_succ] at hmul
      omega
    · have hmul := Nat.mul_le_mul_left s.imemLen (Nat.succ_le_of_lt hlt)
      rw [Nat.mul_succ] at hmul
      omega
  simp only [writeData, if_neg hout]

theorem slotBytes_store {s : Pool} {v : List UInt8} (hv : v.length = s.imemLen) (k l : ℕ) :
    (s.writeData (s.imemLen * l) v).slotBytes k = if k = l then v else s.slotBytes k := by
  split_ifs with hkl
  · subst hkl
    have hself := s.readData_writeData (s.imemLen * k) v
    rw [hv] at hself
    exact hself
  · exact slotBytes_writeData hv hkl

theorem slotBytes_expanded {s : Pool} (hs : s.Shape) (env : Env) (a b : Addr) {k : ℕ}
    (hk : k < s.imemSize) : (s.expanded env a b).slotBytes k = s.slotBytes k := by
  refine List.map_congr_left fun j hj ↦ ?_
  have hj' : j < s.imemLen := List.mem_range.mp hj
  have hmul := Nat.mul_le_mul_left s.imemLen (Nat.succ_le_of_lt hk)
  have hin : s.imemLen * k + j < s.dataCap := by
    rw [hs.dataCap, Nat.mul_comm s.imemSize]
    rw [Nat.mul_succ] at hmul
    omega
  have hdata : (s.expanded env a b).data (s.imemLen * k + j) =
      if s.imemLen * k + j < s.dataCap then s.data (s.imemLen * k + j)
      else env.dataTail (s.imemLen * k + j) := rfl
  exact hdata.trans (if_pos hin)

end Pool

/-! ## One step -/

structure InternInv (s : Interning) : Prop where
  shape : s.pool.Shape
  split : ∃ held, Split s.pool held
  buff : ∀ k < mmPoolBuff, (s.pool.buff k).Coherent s.pool
  given : ∀ x ∈ s.given, ∃ k, s.pool.Used k ∧ x.2 = s.pool.imemLen * k ∧ s.pool.slotBytes k = x.1
  exact : Exact s.given

structure Handed (s : Interning) (v : List UInt8) (t : Pool) (e : CocolTypeHeader) : Prop where
  len : t.imemLen = s.pool.imemLen
  split : ∃ held, Split t held
  buff : ∀ k < mmPoolBuff, (t.buff k).Coherent t
  coherent : e.Coherent t
  used : t.Used e.iheapIdx
  keeps : ∀ k, s.pool.Used k → t.Used k ∧ t.slotBytes k = s.pool.slotBytes k
  place : (v, s.pool.imemLen * e.iheapIdx) ∈ s.given ∨
    ∀ x ∈ s.given, x.1 ≠ v ∧ x.2 ≠ s.pool.imemLen * e.iheapIdx

theorem InternInv.offset_ne {s : Interning} (hs : InternInv s) {k : ℕ} (hk : ¬s.pool.Used k) :
    ∀ x ∈ s.given, x.2 ≠ s.pool.imemLen * k := by
  intro x hx heq
  obtain ⟨l, hl, hxl, -⟩ := hs.given x hx
  have hlk : l = k := Nat.eq_of_mul_eq_mul_left hs.shape.len_pos (hxl.symm.trans heq)
  exact hk (hlk ▸ hl)

theorem InternInv.value_ne {s : Interning} (hs : InternInv s) {v : List UInt8}
    (hmiss : s.pool.lookup v = none) : ∀ x ∈ s.given, x.1 ≠ v := by
  intro x hx heq
  obtain ⟨k, ⟨i, hi, hfi, rfl⟩, -, hbytes⟩ := hs.given x hx
  exact Pool.lookup_eq_none hmiss hfi hi (hbytes.trans heq)

theorem InternInv.handed_hit {s : Interning} (hs : InternInv s) {v : List UInt8} {env : Env}
    (hop : InternSafe s (v, env)) {i : ℕ} (hi : s.pool.lookup v = some i) {e : CocolTypeHeader}
    (he : (s.pool.bumpRef i).deref (.proot s.pool.proot i) = some e) :
    Handed s v (s.pool.bumpRef i) e := by
  obtain ⟨held, hsplit⟩ := hs.split
  obtain ⟨hfi, hin, hbytes⟩ := Pool.lookup_eq_some hi
  obtain ⟨hcoh, hold⟩ := hop.2.1 i hi
  have hslot := Pool.slot_of_hit he
  have hused : ∀ k, (s.pool.bumpRef i).Used k ↔ s.pool.Used k := by
    intro k
    simp only [Pool.Used, s.pool.slotAt_bumpRef]
    rfl
  refine ⟨rfl, ⟨held, hsplit.transport rfl rfl rfl (fun j _ ↦ s.pool.slotAt_bumpRef i j)
    (fun _ ↦ rfl)⟩, hs.buff, ?_, ?_, fun k hk ↦ ⟨(hused k).mpr hk, rfl⟩, ?_⟩
  · have hcoh' := hcoh
    simp only [CocolTypeHeader.Coherent, hslot] at hcoh' ⊢
    rw [Pool.priv_of_hit he]
    exact hcoh'
  · rw [hused, hslot]
    exact ⟨i, hin, hfi, rfl⟩
  · rw [hslot]
    refine hold.imp_right fun hnew x hx ↦ ⟨hnew x hx, fun heq ↦ hnew x hx ?_⟩
    obtain ⟨k, -, hxk, hxv⟩ := hs.given x hx
    have hk : k = s.pool.slotAt i :=
      Nat.eq_of_mul_eq_mul_left hs.shape.len_pos (hxk.symm.trans heq)
    rw [← hxv, hk]
    exact hbytes

theorem InternInv.handed_refill {s : Interning} (hs : InternInv s) {v : List UInt8}
    (hmiss : s.pool.lookup v = none) (hm : s.pool.buffMask = 4) (hf : 4 ≤ s.pool.imemFree) :
    Handed s v { s.pool.refill 4 with buffMask := 1 } ((s.pool.refill 4).buff 0) := by
  obtain ⟨held, hsplit⟩ := hs.split
  have hle := hsplit.free_le
  have hslot : ((s.pool.refill 4).buff 0).iheapIdx = s.pool.slotAt (s.pool.imemFree - 1) :=
    Pool.buff_refill (by omega)
  have hnew : ¬s.pool.Used (s.pool.slotAt (s.pool.imemFree - 1)) := by
    rw [s.pool.used_iff_not_inFree hle hsplit.arranged]
    exact fun h ↦ h.2 ⟨_, by omega, rfl⟩
  refine ⟨rfl, ⟨_, (hsplit.refill hm hf).take (by simp) fun _ ↦ Iff.rfl⟩,
    fun k hk ↦ s.pool.coherent_refill hk, s.pool.coherent_refill (by decide), ?_,
    fun k hk ↦ ⟨(Pool.used_refill hf hle k).mpr (.inl hk), rfl⟩,
    .inr fun x hx ↦ ⟨hs.value_ne hmiss x hx, ?_⟩⟩
  · exact (Pool.used_refill hf hle _).mpr (.inr ⟨0, by omega, hslot.symm⟩)
  · rw [hslot]
    exact hs.offset_ne hnew x hx

/-- The first slot out of a refill right after an expansion is the last of
the sixteen new ones. -/
theorem InternInv.handed_grow {s : Interning} (hs : InternInv s) {v : List UInt8} (env : Env)
    (a b : Addr) (hmiss : s.pool.lookup v = none) (hm : s.pool.buffMask = 4) :
    Handed s v { (s.pool.expanded env a b).refill 4 with buffMask := 1 }
      (((s.pool.expanded env a b).refill 4).buff 0) := by
  obtain ⟨held, hsplit⟩ := hs.split
  have hle := hsplit.free_le
  have hcap := hs.shape.cap
  have hused := Pool.used_expanded hcap hle env a b
  have hsplit' := hsplit.expanded hs.shape hm env a b
  have hf' := s.pool.four_le_expanded env a b
  have hslot : (((s.pool.expanded env a b).refill 4).buff 0).iheapIdx = s.pool.imemSize + 15 := by
    have hboundary : (s.pool.expanded env a b).imemFree - 1 = s.pool.imemFree + 15 := rfl
    rw [Pool.buff_refill (by omega), Nat.sub_zero, hboundary,
      Pool.slotAt_expanded hcap hle env a b (by omega), if_neg (by omega), if_pos (by omega),
      Nat.add_sub_cancel_left]
  have hnew : ¬s.pool.Used (s.pool.imemSize + 15) := by
    rw [s.pool.used_iff_not_inFree hle hsplit.arranged]
    omega
  refine ⟨rfl, ⟨_, (hsplit'.refill hm hf').take (by simp) fun _ ↦ Iff.rfl⟩,
    fun k hk ↦ Pool.coherent_refill _ hk, Pool.coherent_refill _ (by decide), ?_,
    fun k hk ↦ ⟨?_, ?_⟩, .inr fun x hx ↦ ⟨hs.value_ne hmiss x hx, ?_⟩⟩
  · exact (Pool.used_refill hf' hsplit'.free_le _).mpr
      (.inr ⟨0, by omega, (Pool.buff_refill (by omega)).symm⟩)
  · exact (Pool.used_refill hf' hsplit'.free_le k).mpr (.inl ((hused k).mpr hk))
  · obtain ⟨hlt, -⟩ := (s.pool.used_iff_not_inFree hle hsplit.arranged k).mp hk
    exact Pool.slotBytes_expanded hs.shape env a b hlt
  · rw [hslot]
    exact hs.offset_ne hnew x hx

theorem MallocCase.handed {s : Interning} {t : Pool} {v : List UInt8} {env : Env} {p : HeaderPtr}
    {e : CocolTypeHeader} (hs : InternInv s) (hop : InternSafe s (v, env))
    (hc : MallocCase s.pool v env (some p) t) (he : t.deref p = some e) : Handed s v t e := by
  cases hc with
  | hit i hi _ => exact hs.handed_hit hop hi he
  | take hmiss hm =>
      obtain ⟨held, hsplit⟩ := hs.split
      obtain rfl := Pool.deref_take hm he
      have hnew := hop.2.2 hmiss
      rw [if_pos hm] at hnew
      refine ⟨rfl, ⟨_, hsplit.take hm fun _ ↦ Iff.rfl⟩, hs.buff, hs.buff _ hm, ?_,
        fun k hk ↦ ⟨hk, rfl⟩, .inr fun x hx ↦ ⟨hs.value_ne hmiss x hx, hnew x hx⟩⟩
      exact (hsplit.used_iff _).mpr (.inl ⟨_, hm, le_rfl, rfl⟩)
  | refill hmiss hm hf _ =>
      obtain rfl := Pool.deref_refill he
      exact hs.handed_refill hmiss hm hf
  | grow hmiss hm hf a b ha hb =>
      obtain rfl := Pool.deref_refill he
      exact hs.handed_grow env a b hmiss hm

/-- A safe call does not run out of memory. -/
theorem MallocCase.some_of_internSafe {s : Interning} {t : Pool} {v : List UInt8} {env : Env}
    {r : Option HeaderPtr} (hop : InternSafe s (v, env)) (hc : MallocCase s.pool v env r t) :
    ∃ p, r = some p := by
  cases hc with
  | hit i _ _ => exact ⟨_, rfl⟩
  | take _ _ => exact ⟨_, rfl⟩
  | refill _ _ _ _ => exact ⟨_, rfl⟩
  | grow _ _ _ _ _ _ _ => exact ⟨_, rfl⟩
  | noRoot h hm hf ha =>
      have hgrow := hop.2.2 h
      rw [if_neg (by omega)] at hgrow
      exact absurd ha (hgrow hf).1
  | noData h hm hf a _ hb =>
      have hgrow := hop.2.2 h
      rw [if_neg (by omega)] at hgrow
      exact absurd hb (hgrow hf).2

/-- The header handed out leads into the data block. -/
theorem Handed.room {s : Interning} {v : List UInt8} {t : Pool} {e : CocolTypeHeader}
    (hnew : Handed s v t e) (hshape : t.Shape) :
    t.pmemData ≤ e.privData ∧ e.privData + t.imemLen ≤ t.pmemData + t.dataCap := by
  obtain ⟨held, hsplit⟩ := hnew.split
  have hpriv : e.privData = t.pmemData + t.imemLen * e.iheapIdx := hnew.coherent
  have hin : e.iheapIdx < t.imemSize :=
    ((t.used_iff_not_inFree hsplit.free_le hsplit.arranged _).mp hnew.used).1
  have hmul := Nat.mul_le_mul_left t.imemLen (Nat.succ_le_of_lt hin)
  rw [Nat.mul_succ] at hmul
  rw [hpriv, hshape.dataCap, Nat.mul_comm t.imemSize, Nat.add_assoc]
  exact ⟨Nat.le_add_right _ _, Nat.add_le_add_left hmul _⟩

/-- Storing the value in the slot that was handed out keeps the table. -/
theorem Handed.internInv {s : Interning} {v : List UInt8} {t : Pool} {e : CocolTypeHeader}
    (hs : InternInv s) (hnew : Handed s v t e) (hshape : t.Shape) (hlen : v.length = t.imemLen) :
    InternInv ⟨t.writeData (t.imemLen * e.iheapIdx) v,
      s.given ++ [(v, t.imemLen * e.iheapIdx)]⟩ := by
  obtain ⟨held, hsplit⟩ := hnew.split
  have hplace := hnew.place
  rw [← hnew.len] at hplace
  refine ⟨⟨hshape.init, hshape.size, hshape.cap, hshape.dataCap, hshape.mask, hshape.len_pos⟩,
    ⟨held, hsplit.transport rfl rfl rfl (fun _ _ ↦ rfl) (fun _ ↦ rfl)⟩, hnew.buff, ?_,
    hs.exact.concat hplace⟩
  intro x hx
  rcases List.mem_append.mp hx with hx | hx
  · obtain ⟨k, hk, hxk, hxv⟩ := hs.given x hx
    rw [← hnew.len] at hxk
    obtain ⟨hused, hsame⟩ := hnew.keeps k hk
    refine ⟨k, hused, hxk, ?_⟩
    rw [Pool.slotBytes_store hlen]
    split_ifs with heq
    · rcases hplace with hold | hfresh
      · apply (hs.exact (v, t.imemLen * e.iheapIdx) hold x hx).mp
        rw [hxk, heq]
      · apply absurd ?_ (hfresh x hx).2
        rw [hxk, heq]
    · rw [hsame, hxv]
  · obtain rfl : x = (v, t.imemLen * e.iheapIdx) := by simpa using hx
    refine ⟨e.iheapIdx, hnew.used, rfl, ?_⟩
    rw [Pool.slotBytes_store hlen, if_pos rfl]

theorem step_interned {s : Interning} {a : List UInt8 × Env} (hs : InternInv s)
    (hop : InternSafe s a) : ∃ t, step s a = .ok t ∧ InternInv t := by
  obtain ⟨v, env⟩ := a
  obtain ⟨held, hsplit⟩ := hs.split
  have hlen : v.length = s.pool.imemLen := hop.1
  obtain ⟨r, t, hrt⟩ := cocolFuncMalloc_total v env hs.shape hsplit.free_le hsplit.arranged.lt
  have hc := mallocCase hs.shape hrt
  obtain ⟨p, rfl⟩ := hc.some_of_internSafe hop
  obtain ⟨e, he⟩ := hc.deref hs.shape
  have hnew := hc.handed hs hop he
  have hshape := hc.shape hs.shape
  have hoff : e.privData - t.pmemData = t.imemLen * e.iheapIdx := by
    rw [show e.privData = t.pmemData + t.imemLen * e.iheapIdx from hnew.coherent,
      Nat.add_sub_cancel_left]
  refine ⟨_, ?_, hnew.internInv hs hshape (hlen.trans hnew.len.symm)⟩
  simp only [step, if_pos hlen, hrt, he, cocolFuncInit, ensureInit, hshape.init, ↓reduceIte,
    Except.bind, Pool.storeAt, if_pos (hnew.room hshape), Except.map, hoff]

theorem PoolDecl.initial_internInv (d : PoolDecl) (a b : Addr) : InternInv ⟨d.initial a b, []⟩ :=
  ⟨d.initial_shape a b, ⟨_, (d.initial_slotInv a b).split⟩, (d.initial_coherent a b).buff,
    by simp, by simp [Exact]⟩

theorem InternInv.interned {s : Interning} (hs : InternInv s) : Interned s := by
  refine ⟨hs.exact, fun x hx ↦ ?_⟩
  obtain ⟨k, -, hxk, hxv⟩ := hs.given x hx
  rw [hxk]
  exact hxv

/-- A run of safe steps of any length, refills and expansions included,
comes to its end, gives each value one slot and each slot one value, and
keeps the values. -/
theorem interned_of_internSafe {d : PoolDecl} {s : Interning} (hs : Started d s)
    {as : List (List UInt8 × Env)} (h : EachStep step InternSafe s as) :
    (∃ t, run step s as = .ok t) ∧ Always step Interned s as := by
  have h0 : InternInv s := by
    obtain ⟨env, hinit, hgiven⟩ := hs
    obtain ⟨a, b, hab⟩ := mmPoolInit_ok hinit
    obtain ⟨pool, given⟩ := s
    obtain rfl : pool = d.initial a b := hab
    obtain rfl : given = [] := hgiven
    exact d.initial_internInv a b
  have hstep : ∀ s a t, InternInv s → InternSafe s a → step s a = .ok t → InternInv t := by
    intro s a t hinv hsafe hok
    obtain ⟨u, hu, hinv'⟩ := step_interned hinv hsafe
    exact Except.ok.inj (hu.symm.trans hok) ▸ hinv'
  refine ⟨run_total hstep (fun s a hinv hsafe ↦ ?_) h0 h, ?_⟩
  · obtain ⟨t, ht, -⟩ := step_interned hinv hsafe
    exact ⟨t, ht⟩
  · exact (always_of_eachStep hstep h0 h).mono fun _ ↦ InternInv.interned

/-- The zero value is found in a slot that only waits in `buff`, and the
fourth miss after it hands that slot out again. -/
theorem interned_zero_first :
    Started (gCharHeader 0x1000 0x2000) ⟨(gCharHeader 0x1000 0x2000).initial 0x3000 0x4000, []⟩ ∧
    ¬Always step Interned ⟨(gCharHeader 0x1000 0x2000).initial 0x3000 0x4000, []⟩
      ((List.range 5).map fun i ↦ ([0, 0, 0, UInt8.ofNat i], noMemory)) := by
  have hshared : ¬Always step (fun t ↦ Exact t.given)
      ⟨(gCharHeader 0x1000 0x2000).initial 0x3000 0x4000, []⟩
      ((List.range 5).map fun i ↦ ([0, 0, 0, UInt8.ofNat i], noMemory)) := by decide +kernel
  refine ⟨⟨{ noMemory with mallocRoot := some 0x3000, mallocData := some 0x4000 }, ?_, rfl⟩,
    fun h ↦ hshared (h.mono fun _ ht ↦ ht.exact)⟩
  exact mmPoolInit_eq rfl rfl

theorem interned_of_internSafe_char :
    Always step Interned ⟨(gCharHeader 0x1000 0x2000).initial 0x3000 0x4000, []⟩
      ([1, 2, 1, 3, 4, 5].map fun c ↦ ([0, 0, 0, c], noMemory)) :=
  (interned_of_internSafe (d := gCharHeader 0x1000 0x2000)
    ⟨{ noMemory with mallocRoot := some 0x3000, mallocData := some 0x4000 },
      mmPoolInit_eq rfl rfl, rfl⟩ (by decide +kernel)).2

end Cocool.Mmp
