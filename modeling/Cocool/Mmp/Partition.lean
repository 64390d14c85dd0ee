import Cocool.Lib.Slots
import Cocool.Mmp.Stability

/-!
# Where the slots are

A slot is free, held back in `buff`, or held by a client.  The argument
looks at the used window `imemFree, …, imemSize - 1` of the header array:
its slots are the reserved and the held ones, and no slot is both.
-/

namespace Cocool.Mmp

open Session Lib

namespace Pool

def slotAt (s : Pool) (i : ℕ) : ℕ := (s.headers i).iheapIdx

def InFree (s : Pool) (k : ℕ) : Prop := ∃ i < s.imemFree, s.slotAt i = k

def Reserved (s : Pool) (k : ℕ) : Prop :=
  ∃ j < mmPoolBuff, s.buffMask ≤ j ∧ (s.buff j).iheapIdx = k

def Used (s : Pool) (k : ℕ) : Prop := ∃ i < s.imemSize, s.imemFree ≤ i ∧ s.slotAt i = k

instance (s : Pool) (k : ℕ) : Decidable (s.InFree k) :=
  inferInstanceAs (Decidable (∃ i < s.imemFree, _))

instance (s : Pool) (k : ℕ) : Decidable (s.Reserved k) :=
  inferInstanceAs (Decidable (∃ j < mmPoolBuff, _))

end Pool

def Held (live : List Grant) (k : ℕ) : Prop := ∃ g ∈ live, g.slot = k

def Denoted (s : Session) (k : ℕ) : Prop := ∃ g ∈ s.live, ∃ e ∈ s.pool.deref g.ptr, e.iheapIdx = k

instance (live : List Grant) (k : ℕ) : Decidable (Held live k) :=
  inferInstanceAs (Decidable (∃ g ∈ live, _))

/-- `proot` permutes the slots, and each slot is in exactly one of the three
places. -/
structure Partition (s : Pool) (held : ℕ → Prop) : Prop where
  perm : ((List.range s.imemSize).map s.slotAt).Perm (List.range s.imemSize)
  place : ∀ k < s.imemSize,
    (s.InFree k ∧ ¬s.Reserved k ∧ ¬held k) ∨ (¬s.InFree k ∧ s.Reserved k ∧ ¬held k) ∨
      (¬s.InFree k ∧ ¬s.Reserved k ∧ held k)
  reserved_lt : ∀ k, s.Reserved k → k < s.imemSize
  held_lt : ∀ k, held k → k < s.imemSize
  reserved_inj : ∀ i j, s.buffMask ≤ i → i < mmPoolBuff → s.buffMask ≤ j → j < mmPoolBuff →
    (s.buff i).iheapIdx = (s.buff j).iheapIdx → i = j

/-- The client asks for nothing that upsets the partition: a lookup must not
find a slot that is still reserved, a handle is only freed as the sole one on
its slot and while that slot sits at the boundary, and only the header of a
held slot is copied. -/
def SlotSafe (s : Session) : Op → Prop
  | .malloc v _ => ∀ i ∈ s.pool.lookup v, ¬s.pool.Reserved (s.pool.slotAt i)
  | .free j =>
      ∀ g ∈ s.live[j]?, ∀ e ∈ s.pool.deref g.ptr,
        e.iheapIdx = g.slot ∧ g.slot = s.pool.slotAt s.pool.imemFree ∧
          ¬Held (s.live.eraseIdx j) g.slot
  | .dup p => ∀ e ∈ s.pool.deref p, Held s.live e.iheapIdx
  | .init _ _ _ => True

instance (s : Session) : DecidablePred (SlotSafe s)
  | .malloc v _ => inferInstanceAs (Decidable (∀ i ∈ s.pool.lookup v, _))
  | .free j => inferInstanceAs (Decidable (∀ g ∈ s.live[j]?, ∀ e ∈ s.pool.deref g.ptr, _))
  | .dup p => inferInstanceAs (Decidable (∀ e ∈ s.pool.deref p, _))
  | .init _ _ _ => isTrue trivial

/-! ## The used window -/

structure Split (s : Pool) (held : ℕ → Prop) : Prop where
  free_le : s.imemFree ≤ s.imemSize
  arranged : Arranged s.slotAt s.imemSize
  used_iff : ∀ k, s.Used k ↔ s.Reserved k ∨ held k
  disjoint : ∀ k, s.Reserved k → ¬held k
  reserved_inj : ∀ i j, s.buffMask ≤ i → i < mmPoolBuff → s.buffMask ≤ j → j < mmPoolBuff →
    (s.buff i).iheapIdx = (s.buff j).iheapIdx → i = j

theorem Pool.used_iff_not_inFree {s : Pool} (hf : s.imemFree ≤ s.imemSize)
    (h : Arranged s.slotAt s.imemSize) (k : ℕ) : s.Used k ↔ k < s.imemSize ∧ ¬s.InFree k := by
  constructor
  · rintro ⟨i, hi, hfi, rfl⟩
    refine ⟨h.lt i hi, ?_⟩
    rintro ⟨l, hl, heq⟩
    have hli := h.inj l i (hl.trans_le hf) hi heq
    omega
  · rintro ⟨hk, hfree⟩
    obtain ⟨i, hi, rfl⟩ := h.surj hk
    refine ⟨i, hi, ?_, rfl⟩
    by_contra hlt
    exact hfree ⟨i, by omega, rfl⟩

theorem Split.partition {s : Pool} {held : ℕ → Prop} (h : Split s held) : Partition s held := by
  have hused := s.used_iff_not_inFree h.free_le h.arranged
  refine ⟨arranged_iff_perm.mp h.arranged, fun k hk ↦ ?_, fun k hk ↦ ?_, fun k hk ↦ ?_,
    h.reserved_inj⟩
  · have hk₁ := hused k
    have hk₂ := h.used_iff k
    have hk₃ := h.disjoint k
    tauto
  · exact ((hused k).mp ((h.used_iff k).mpr (.inl hk))).1
  · exact ((hused k).mp ((h.used_iff k).mpr (.inr hk))).1

theorem Partition.split {s : Pool} {held : ℕ → Prop} (h : Partition s held)
    (hf : s.imemFree ≤ s.imemSize) : Split s held := by
  have harr := arranged_iff_perm.mpr h.perm
  have hused := s.used_iff_not_inFree hf harr
  refine ⟨hf, harr, fun k ↦ ?_, fun k hk ↦ ?_, h.reserved_inj⟩
  · have hk₁ := hused k
    have hk₂ := h.place k
    have hk₃ := h.reserved_lt k
    have hk₄ := h.held_lt k
    tauto
  · have hk₂ := h.place k (h.reserved_lt k hk)
    tauto

theorem Split.congr {s : Pool} {held held' : ℕ → Prop} (h : Split s held)
    (hheld : ∀ k, held' k ↔ held k) : Split s held' := by
  have heq : held' = held := funext fun k ↦ propext (hheld k)
  exact heq ▸ h

theorem Split.transport {s t : Pool} {held : ℕ → Prop} (h : Split s held)
    (hsize : t.imemSize = s.imemSize) (hfree : t.imemFree = s.imemFree)
    (hmask : t.buffMask = s.buffMask) (hslot : ∀ i < s.imemSize, t.slotAt i = s.slotAt i)
    (hbuff : ∀ j, (t.buff j).iheapIdx = (s.buff j).iheapIdx) : Split t held := by
  have hres : ∀ k, t.Reserved k ↔ s.Reserved k := by
    intro k
    simp only [Pool.Reserved, hmask, hbuff]
  have hused : ∀ k, t.Used k ↔ s.Used k := by
    intro k
    simp only [Pool.Used, hsize, hfree]
    constructor <;> rintro ⟨i, hi, hfi, rfl⟩
    · exact ⟨i, hi, hfi, (hslot i hi).symm⟩
    · exact ⟨i, hi, hfi, hslot i hi⟩
  refine ⟨by rw [hsize, hfree]; exact h.free_le, ?_, fun k ↦ ?_, fun k hk ↦ ?_, ?_⟩
  · rw [hsize]
    refine ⟨fun i hi ↦ ?_, fun i j hi hj hij ↦ ?_⟩
    · rw [hslot i hi]
      exact h.arranged.lt i hi
    · rw [hslot i hi, hslot j hj] at hij
      exact h.arranged.inj i j hi hj hij
  · rw [hused, hres]
    exact h.used_iff k
  · exact h.disjoint k ((hres k).mp hk)
  · simpa only [hmask, hbuff] using h.reserved_inj

/-! ## Taking slots -/

theorem Pool.reserved_take {s : Pool} (hm : s.buffMask < 4) (k : ℕ) :
    s.Reserved k ↔ k = (s.buff s.buffMask).iheapIdx ∨
      ({ s with buffMask := s.buffMask + 1 } : Pool).Reserved k := by
  constructor
  · rintro ⟨j, hj, hmj, rfl⟩
    rcases Nat.eq_or_lt_of_le hmj with heq | hlt
    · left
      rw [heq]
    · exact .inr ⟨j, hj, hlt, rfl⟩
  · rintro (rfl | ⟨j, hj, hmj, rfl⟩)
    · exact ⟨s.buffMask, hm, le_rfl, rfl⟩
    · exact ⟨j, hj, Nat.le_of_succ_le hmj, rfl⟩

theorem Split.take {s : Pool} {held held' : ℕ → Prop} (h : Split s held) (hm : s.buffMask < 4)
    (hheld : ∀ k, held' k ↔ k = (s.buff s.buffMask).iheapIdx ∨ held k) :
    Split { s with buffMask := s.buffMask + 1 } held' := by
  have hres := s.reserved_take hm
  refine ⟨h.free_le, h.arranged, fun k ↦ ?_, fun k hk hk' ↦ ?_, fun i j hi hi' hj hj' ↦ ?_⟩
  · have hused := h.used_iff k
    rw [hres] at hused
    rw [hheld]
    exact hused.trans (by tauto)
  · rcases (hheld k).mp hk' with rfl | hk'
    · obtain ⟨j, hj, hmj, heq⟩ := hk
      have hjm := h.reserved_inj j s.buffMask (Nat.le_of_succ_le hmj) hj le_rfl hm heq
      simp only at hmj
      omega
    · exact h.disjoint k ((hres k).mpr (.inr hk)) hk'
  · exact h.reserved_inj i j (Nat.le_of_succ_le hi) hi' (Nat.le_of_succ_le hj) hj'

theorem Pool.not_reserved {s : Pool} (hm : s.buffMask = 4) (k : ℕ) : ¬s.Reserved k := by
  rintro ⟨j, hj, hmj, -⟩
  simp only [mmPoolBuff] at hj
  omega

theorem Pool.used_refill {s : Pool} (hf : 4 ≤ s.imemFree) (hle : s.imemFree ≤ s.imemSize) (k : ℕ) :
    (s.refill 4).Used k ↔ s.Used k ∨ ∃ j < 4, s.slotAt (s.imemFree - 1 - j) = k := by
  constructor
  · rintro ⟨i, hi, hfi, rfl⟩
    simp only [Pool.refill] at hi hfi
    by_cases hlt : i < s.imemFree
    · have hback : s.imemFree - 1 - (s.imemFree - 1 - i) = i := by omega
      exact .inr ⟨s.imemFree - 1 - i, by omega, congrArg s.slotAt hback⟩
    · exact .inl ⟨i, hi, by omega, rfl⟩
  · rintro (⟨i, hi, hfi, rfl⟩ | ⟨j, hj, rfl⟩)
    · exact ⟨i, hi, (Nat.sub_le _ _).trans hfi, rfl⟩
    · exact ⟨s.imemFree - 1 - j, by simp only [Pool.refill]; omega,
        by simp only [Pool.refill]; omega, rfl⟩

theorem Pool.buff_refill {s : Pool} {j : ℕ} (hj : j < 4) :
    ((s.refill 4).buff j).iheapIdx = s.slotAt (s.imemFree - 1 - j) := by
  simp [refill, slotAt, hj]

theorem Split.refill {s : Pool} {held : ℕ → Prop} (h : Split s held) (hm : s.buffMask = 4)
    (hf : 4 ≤ s.imemFree) : Split { s.refill 4 with buffMask := 0 } held := by
  have hle := h.free_le
  have hres : ∀ k, ({ s.refill 4 with buffMask := 0 } : Pool).Reserved k ↔
      ∃ j < 4, s.slotAt (s.imemFree - 1 - j) = k := by
    intro k
    constructor
    · rintro ⟨j, hj, -, rfl⟩
      exact ⟨j, hj, (Pool.buff_refill hj).symm⟩
    · rintro ⟨j, hj, rfl⟩
      exact ⟨j, hj, Nat.zero_le j, Pool.buff_refill hj⟩
  refine ⟨(Nat.sub_le _ _).trans hle, h.arranged, fun k ↦ ?_, fun k hk hk' ↦ ?_,
    fun i j _ hi _ hj hij ↦ ?_⟩
  · have hused : ({ s.refill 4 with buffMask := 0 } : Pool).Used k ↔
        s.Used k ∨ ∃ j < 4, s.slotAt (s.imemFree - 1 - j) = k := Pool.used_refill hf hle k
    rw [hused, hres, h.used_iff, or_iff_right (Pool.not_reserved hm k)]
    exact or_comm
  · obtain ⟨j, hj, rfl⟩ := (hres k).mp hk
    have hused := (h.used_iff _).mpr (.inr hk')
    exact ((s.used_iff_not_inFree hle h.arranged _).mp hused).2 ⟨_, by omega, rfl⟩
  · have hi' : i < 4 := hi
    have hj' : j < 4 := hj
    have hslots : s.slotAt (s.imemFree - 1 - i) = s.slotAt (s.imemFree - 1 - j) := by
      rw [← Pool.buff_refill hi', ← Pool.buff_refill hj']
      exact hij
    have heq := h.arranged.inj _ _ (by omega) (by omega) hslots
    omega

/-! ## Expansion -/

theorem Pool.arranged_grown {s : Pool} (hf : s.imemFree ≤ s.imemSize)
    (h : Arranged s.slotAt s.imemSize) (m : ℕ) :
    Arranged (s.grownIdx m) (s.imemSize + m) := by
  induction m with
  | zero =>
      have hidx : s.grownIdx 0 = s.slotAt := by
        funext j
        exact congrArg (fun t ↦ t.slotAt j) s.grow_zero
      simpa [hidx] using h
  | succ m ih =>
      -- The new position first names itself, then trades with the boundary.
      have hsnoc : Arranged (fun j ↦ if j = s.imemSize + m then s.imemSize + m
          else s.grownIdx m j) (s.imemSize + m + 1) := by
        refine ih.snoc (fun i hi ↦ ?_) (by simp)
        simp [show i ≠ s.imemSize + m by omega]
      refine hsnoc.swap (a := s.imemFree + m) (b := s.imemSize + m) (by omega) (by omega) ?_ ?_ ?_
      · simp [s.grownIdx_succ m _ hf]
      · by_cases heq : s.imemSize = s.imemFree
        · simp [s.grownIdx_succ m _ hf, heq]
        · simp [s.grownIdx_succ m _ hf, heq, Ne.symm heq]
      · intro i hi hi'
        simp [s.grownIdx_succ m _ hf, hi, hi']

theorem Pool.used_grown {s : Pool} (hf : s.imemFree ≤ s.imemSize) (m k : ℕ) :
    (∃ j < s.imemSize + m, s.imemFree + m ≤ j ∧ s.grownIdx m j = k) ↔ s.Used k := by
  induction m with
  | zero =>
      have hidx : s.grownIdx 0 = s.slotAt := by
        funext j
        exact congrArg (fun t ↦ t.slotAt j) s.grow_zero
      simp [hidx, Used]
  | succ m ih =>
      rw [← ih]
      constructor
      · rintro ⟨j, hj, hfj, rfl⟩
        rw [s.grownIdx_succ m _ hf, if_neg (by omega)]
        split_ifs with hjn
        · exact ⟨s.imemFree + m, by omega, le_rfl, rfl⟩
        · exact ⟨j, by omega, by omega, rfl⟩
      · rintro ⟨j, hj, hfj, rfl⟩
        by_cases hjf : j = s.imemFree + m
        · refine ⟨s.imemSize + m, by omega, by omega, ?_⟩
          rw [s.grownIdx_succ m _ hf, if_neg (by omega), if_pos rfl, hjf]
        · refine ⟨j, by omega, by omega, ?_⟩
          rw [s.grownIdx_succ m _ hf, if_neg hjf, if_neg (by omega)]

theorem Pool.used_expanded {s : Pool} (hcap : s.imemSize ≤ s.headerCap)
    (hf : s.imemFree ≤ s.imemSize) (env : Env) (a b : Addr) (k : ℕ) :
    (s.expanded env a b).Used k ↔ s.Used k := by
  have hgrown : (s.expanded env a b).Used k ↔ ((s.reallocRoot env a).reallocData env b).Used k :=
    Pool.used_grown (s := { (s.reallocRoot env a).reallocData env b with
      imemUsed := s.imemUsed + 16 }) hf 16 k
  have hslot : ∀ i < s.imemSize,
      ((s.reallocRoot env a).reallocData env b).slotAt i = s.slotAt i := by
    intro i hi
    simp [slotAt, reallocData, reallocRoot, logged, show i < s.headerCap by omega]
  rw [hgrown]
  constructor <;> rintro ⟨i, hi, hfi, rfl⟩
  · exact ⟨i, hi, hfi, (hslot i hi).symm⟩
  · exact ⟨i, hi, hfi, hslot i hi⟩

theorem Split.grow {s : Pool} {held : ℕ → Prop} (h : Split s held) (hm : s.buffMask = 4)
    (m : ℕ) : Split (s.grow m) held := by
  have hres : ∀ k, ¬(s.grow m).Reserved k := fun k ↦ Pool.not_reserved hm k
  refine ⟨Nat.add_le_add_right h.free_le m, Pool.arranged_grown h.free_le h.arranged m,
    fun k ↦ ?_, fun k hk ↦ absurd hk (hres k), h.reserved_inj⟩
  have hused : (s.grow m).Used k ↔ s.Used k := Pool.used_grown h.free_le m k
  rw [hused, h.used_iff]
  have hk₁ := hres k
  have hk₂ := Pool.not_reserved hm k
  tauto

theorem Pool.slotAt_expanded {s : Pool} (hcap : s.imemSize ≤ s.headerCap)
    (hf : s.imemFree ≤ s.imemSize) (env : Env) (a b : Addr) {j : ℕ} (hj : j < s.imemSize + 16) :
    (s.expanded env a b).slotAt j =
      if j < s.imemFree then s.slotAt j
      else if j < s.imemFree + 16 then s.imemSize + (j - s.imemFree)
      else if j < s.imemSize then s.slotAt j
      else s.slotAt (s.imemFree + (j - s.imemSize) % (s.imemSize - s.imemFree)) := by
  have hhead : ∀ i < s.imemSize,
      ((s.reallocRoot env a).reallocData env b).headers i = s.headers i := by
    intro i hi
    simp [reallocData, reallocRoot, logged, show i < s.headerCap by omega]
  have hslot : (s.expanded env a b).slotAt j =
      ({ (s.reallocRoot env a).reallocData env b with imemUsed := s.imemUsed + 16 } :
        Pool).grownIdx 16 j := rfl
  have hsize : ((s.reallocRoot env a).reallocData env b).imemSize = s.imemSize := rfl
  have hfree : ((s.reallocRoot env a).reallocData env b).imemFree = s.imemFree := rfl
  rw [hslot]
  simp only [grownIdx, hsize, hfree, slotAt]
  split_ifs with h₁ h₂ h₃
  · rw [hhead j (by omega)]
  · rfl
  · rw [hhead j h₃]
  · have hmod := Nat.mod_lt (j - s.imemSize) (show 0 < s.imemSize - s.imemFree by omega)
    rw [hhead _ (by omega)]

theorem Split.expanded {s : Pool} {held : ℕ → Prop} (h : Split s held) (hs : s.Shape)
    (hm : s.buffMask = 4) (env : Env) (a b : Addr) : Split (s.expanded env a b) held := by
  have hmoved : Split { (s.reallocRoot env a).reallocData env b with
      imemUsed := s.imemUsed + 16 } held := by
    refine h.transport rfl rfl rfl (fun i hi ↦ ?_) (fun _ ↦ rfl)
    have hcap := hs.cap
    simp [Pool.slotAt, Pool.reallocData, Pool.reallocRoot, Pool.logged,
      show i < s.headerCap by omega]
  exact hmoved.grow hm 16

/-! ## Lookup hits -/

theorem Pool.slotAt_bumpRef (s : Pool) (i j : ℕ) : (s.bumpRef i).slotAt j = s.slotAt j := by
  by_cases hji : j = i
  · subst hji
    simp [slotAt, bumpRef]
  · simp [slotAt, bumpRef, hji]

theorem Pool.slot_of_hit {s : Pool} {i : ℕ} {e : CocolTypeHeader}
    (he : (s.bumpRef i).deref (.proot s.proot i) = some e) : e.iheapIdx = s.slotAt i := by
  rw [← s.slotAt_bumpRef i]
  simp only [deref] at he
  split_ifs at he with hd
  rw [slotAt, Option.some.inj he]

theorem Pool.priv_of_hit {s : Pool} {i : ℕ} {e : CocolTypeHeader}
    (he : (s.bumpRef i).deref (.proot s.proot i) = some e) :
    e.privData = (s.headers i).privData := by
  simp only [deref] at he
  split_ifs at he with hd
  rw [← Option.some.inj he]
  simp [bumpRef]

theorem Split.held_of_hit {s : Pool} {held : ℕ → Prop} (h : Split s held) {v : List UInt8}
    {i : ℕ} (hi : s.lookup v = some i) (hsafe : ¬s.Reserved (s.slotAt i)) :
    held (s.slotAt i) := by
  obtain ⟨hfi, hin, -⟩ := Pool.lookup_eq_some hi
  exact ((h.used_iff _).mp ⟨i, hin, hfi, rfl⟩).resolve_left hsafe

theorem MallocCase.deref {s t : Pool} {v : List UInt8} {env : Env} {p : HeaderPtr}
    (hc : MallocCase s v env (some p) t) (hs : s.Shape) : ∃ e, t.deref p = some e := by
  cases hc with
  | hit i hi _ =>
      have hin : i < s.headerCap := (Pool.lookup_eq_some hi).2.1.trans_le hs.cap
      exact ⟨_, if_pos ⟨rfl, hin⟩⟩
  | take _ hm => exact ⟨_, if_pos hm⟩
  | refill _ _ _ _ => exact ⟨(s.refill 4).buff 0, by simp [Pool.deref, mmPoolBuff]⟩
  | grow _ _ _ a b _ _ =>
      exact ⟨((s.expanded env a b).refill 4).buff 0, by simp [Pool.deref, mmPoolBuff]⟩

theorem MallocCase.split {s t : Pool} {v : List UInt8} {env : Env} {p : HeaderPtr}
    {e : CocolTypeHeader} {held held' : ℕ → Prop} (hc : MallocCase s v env (some p) t)
    (hs : s.Shape) (h : Split s held)
    (hsafe : ∀ i ∈ s.lookup v, ¬s.Reserved (s.slotAt i)) (he : t.deref p = some e)
    (hheld : ∀ k, held' k ↔ k = e.iheapIdx ∨ held k) : Split t held' := by
  cases hc with
  | hit i hi _ =>
      have hbump : Split (s.bumpRef i) held :=
        h.transport rfl rfl rfl (fun j _ ↦ s.slotAt_bumpRef i j) (fun _ ↦ rfl)
      refine hbump.congr fun k ↦ ?_
      rw [hheld, Pool.slot_of_hit he]
      exact ⟨fun hk ↦ hk.elim (fun heq ↦ heq ▸ h.held_of_hit hi (hsafe i hi)) id, .inr⟩
  | take _ hm =>
      obtain rfl := Pool.deref_take hm he
      exact h.take hm hheld
  | refill _ hm hf _ =>
      obtain rfl := Pool.deref_refill he
      exact (h.refill hm hf).take (by simp) hheld
  | grow _ hm _ a b _ _ =>
      obtain rfl := Pool.deref_refill he
      have h' := h.expanded hs hm env a b
      have hf' := s.four_le_expanded env a b
      exact (h'.refill hm hf').take (by simp) hheld

theorem MallocCase.split_null {s t : Pool} {v : List UInt8} {env : Env} {held : ℕ → Prop}
    (hc : MallocCase s v env none t) (hs : s.Shape) (h : Split s held) : Split t held := by
  cases hc with
  | noRoot _ _ _ _ => exact h
  | noData _ _ _ a _ _ =>
      refine h.transport rfl rfl rfl (fun i hi ↦ ?_) (fun _ ↦ rfl)
      have hcap := hs.cap
      simp [Pool.slotAt, Pool.reallocRoot, Pool.logged, show i < s.headerCap by omega]

/-! ## Sessions -/

theorem held_cons {g : Grant} {live : List Grant} {k : ℕ} :
    Held (g :: live) k ↔ k = g.slot ∨ Held live k := by
  simp [Held, eq_comm]

theorem held_eraseIdx {live : List Grant} {j : ℕ} {g : Grant} (hg : live[j]? = some g) (k : ℕ) :
    Held live k ↔ k = g.slot ∨ Held (live.eraseIdx j) k := by
  constructor
  · rintro ⟨g', hg', rfl⟩
    obtain ⟨i, hi⟩ := List.mem_iff_getElem?.mp hg'
    by_cases hij : i = j
    · subst hij
      rw [hg, Option.some.injEq] at hi
      left
      rw [hi]
    · exact .inr ⟨g', List.mem_eraseIdx_iff_getElem?.mpr ⟨i, hij, hi⟩, rfl⟩
  · rintro (rfl | ⟨g', hg', rfl⟩)
    · exact ⟨g, List.mem_of_getElem? hg, rfl⟩
    · exact ⟨g', List.mem_of_mem_eraseIdx hg', rfl⟩

/-- Every held slot has a handle that does not point into the array: the
first one came out of `buff`. -/
def Original (live : List Grant) : Prop :=
  ∀ k, Held live k → ∃ g ∈ live, g.slot = k ∧ ∀ base i, g.ptr ≠ .proot base i

structure SlotInv (s : Session) : Prop where
  shape : s.pool.Shape
  inside : Inside s
  split : Split s.pool (Held s.live)
  original : Original s.live

theorem Original.cons {live : List Grant} (h : Original live) {g : Grant}
    (hg : (∀ base i, g.ptr ≠ .proot base i) ∨ Held live g.slot) : Original (g :: live) := by
  intro k hk
  have hold : Held live k → ∃ g' ∈ g :: live, g'.slot = k ∧ ∀ base i, g'.ptr ≠ .proot base i := by
    intro hk
    obtain ⟨g', hmem, hslot, hptr⟩ := h k hk
    exact ⟨g', List.mem_cons_of_mem _ hmem, hslot, hptr⟩
  rcases held_cons.mp hk with rfl | hk
  · rcases hg with hptr | hheld
    · exact ⟨g, List.mem_cons_self, rfl, hptr⟩
    · exact hold hheld
  · exact hold hk

theorem Original.eraseIdx {live : List Grant} (h : Original live) {j : ℕ} {g : Grant}
    (hg : live[j]? = some g) (hsole : ¬Held (live.eraseIdx j) g.slot) :
    Original (live.eraseIdx j) := by
  intro k hk
  obtain ⟨g', hmem, rfl, hptr⟩ := h k ((held_eraseIdx hg k).mpr (.inr hk))
  obtain ⟨i, hi⟩ := List.mem_iff_getElem?.mp hmem
  refine ⟨g', List.mem_eraseIdx_iff_getElem?.mpr ⟨i, ?_, hi⟩, rfl, hptr⟩
  rintro rfl
  rw [hg, Option.some.injEq] at hi
  exact hsole (hi ▸ hk)

theorem Split.release {s : Pool} {held held' : ℕ → Prop} (h : Split s held)
    (hheld : ∀ k, held k ↔ k = s.slotAt s.imemFree ∨ held' k)
    (hgone : ¬held' (s.slotAt s.imemFree)) :
    Split s.released held' := by
  have hk₀ : held (s.slotAt s.imemFree) := (hheld _).mpr (.inl rfl)
  obtain ⟨i, hi, hfi, -⟩ := (h.used_iff _).mpr (.inr hk₀)
  have hused : ∀ k, s.released.Used k ↔ s.Used k ∧ k ≠ s.slotAt s.imemFree := by
    intro k
    constructor
    · rintro ⟨l, hl, hfl, rfl⟩
      refine ⟨⟨l, hl, Nat.le_of_succ_le hfl, rfl⟩, fun heq ↦ ?_⟩
      have hlf := h.arranged.inj l s.imemFree hl (hfi.trans_lt hi) heq
      simp only [Pool.released] at hfl
      omega
    · rintro ⟨⟨l, hl, hfl, rfl⟩, hne⟩
      refine ⟨l, hl, Nat.lt_of_le_of_ne hfl fun heq ↦ ?_, rfl⟩
      exact hne (by rw [heq])
  refine ⟨hfi.trans_lt hi, h.arranged, fun k ↦ ?_, fun k hk hk' ↦ ?_, h.reserved_inj⟩
  · have hres : s.released.Reserved k ↔ s.Reserved k := Iff.rfl
    have hk₁ := h.used_iff k
    have hk₂ := h.disjoint k
    have hk₃ := hheld k
    rw [hused, hres]
    constructor
    · tauto
    · rintro (hk | hk)
      · refine ⟨hk₁.mpr (.inl hk), ?_⟩
        rintro rfl
        exact hk₂ hk hk₀
      · refine ⟨hk₁.mpr (.inr (hk₃.mpr (.inr hk))), ?_⟩
        rintro rfl
        exact hgone hk
  · exact h.disjoint k hk ((hheld k).mpr (.inr hk'))

theorem step_slotInv {s t : Session} {op : Op} (hs : SlotInv s) (hop : SlotSafe s op)
    (h : step s op = .ok t) : SlotInv t := by
  obtain ⟨hshape, hin, hsplit, horig⟩ := hs
  have hstep := stepCase hshape h
  refine ⟨step_shape hshape h, step_inside hshape hin h, ?_, ?_⟩
  · cases hstep with
    | malloc v env p t e _ hc he => exact hc.split hshape hsplit hop he fun k ↦ held_cons
    | null v env t hc => exact hc.split_null hshape hsplit
    | init p v env e _ _ _ _ =>
        exact hsplit.transport rfl rfl rfl (fun _ _ ↦ rfl) (fun _ ↦ rfl)
    | free j g e hg _ he =>
        obtain ⟨hes, hboundary, hsole⟩ := hop g hg e he
        rw [Pool.freed_of_eq he (hes.trans hboundary)]
        refine hsplit.release (fun k ↦ ?_) (hboundary ▸ hsole)
        rw [← hboundary]
        exact held_eraseIdx hg k
    | dup p e he =>
        have hdup : Split (s.pool.dupped e) (Held s.live) :=
          hsplit.transport rfl rfl rfl (fun _ _ ↦ rfl) (fun _ ↦ rfl)
        refine hdup.congr fun k ↦ ?_
        rw [held_cons]
        exact ⟨fun hk ↦ hk.elim (fun heq ↦ heq ▸ hop e he) id, .inr⟩
  · cases hstep with
    | malloc v env p t e _ hc he =>
        apply horig.cons
        cases hc with
        | hit i hi _ =>
            apply Or.inr
            rw [show e.iheapIdx = s.pool.slotAt i from Pool.slot_of_hit he]
            exact hsplit.held_of_hit hi (hop i hi)
        | take _ _ => exact .inl fun _ _ hp ↦ by cases hp
        | refill _ _ _ _ => exact .inl fun _ _ hp ↦ by cases hp
        | grow _ _ _ _ _ _ _ => exact .inl fun _ _ hp ↦ by cases hp
    | null v env t hc => exact horig
    | init p v env e _ _ _ _ => exact horig
    | free j g e hg _ he => exact horig.eraseIdx hg (hop g hg e he).2.2
    | dup p e he => exact horig.cons (.inr (hop e he))

/-! ## What an intact partition says about the step before -/

/-- A slot that a free moved out of the used window was held by the freed
handle alone. -/
theorem sole_of_released {s t : Pool} {live : List Grant} {j : ℕ} {g : Grant}
    (h : Split s (Held live)) (ht : Split t (Held (live.eraseIdx j))) (hg : live[j]? = some g)
    {k : ℕ} (hres : s.Reserved k → t.Reserved k) (hk : s.Used k) (hk' : ¬t.Used k) :
    k = g.slot ∧ ¬Held (live.eraseIdx j) k := by
  have hgone : ¬t.Reserved k ∧ ¬Held (live.eraseIdx j) k :=
    not_or.mp fun hor ↦ hk' ((ht.used_iff k).mpr hor)
  have hheld : Held live k :=
    ((h.used_iff k).mp hk).resolve_left fun hr ↦ hgone.1 (hres hr)
  exact ⟨((held_eraseIdx hg k).mp hheld).resolve_right hgone.2, hgone.2⟩

/-- A free through a header outside of the array only keeps the slots
permuted when it changes none of their names. -/
theorem slot_eq_of_arranged {s : Pool} {p : HeaderPtr} {e : CocolTypeHeader}
    (hp : ∀ base i, p ≠ .proot base i) (hf : s.imemFree < s.imemSize)
    (h : Arranged s.slotAt s.imemSize) (ht : Arranged (s.freed p e).slotAt s.imemSize) :
    e.iheapIdx = s.slotAt s.imemFree := by
  have hslot : ∀ l, (s.freed p e).slotAt l = if l = s.imemFree then e.iheapIdx else s.slotAt l :=
    Pool.freed_other_idx hp
  have hlt : e.iheapIdx < s.imemSize := by
    have hb := ht.lt s.imemFree hf
    rwa [hslot, if_pos rfl] at hb
  obtain ⟨i, hi, hie⟩ := h.surj hlt
  by_cases hif : i = s.imemFree
  · rw [← hie, hif]
  · have hsame : (s.freed p e).slotAt i = (s.freed p e).slotAt s.imemFree := by
      rw [hslot, if_neg hif, hslot, if_pos rfl, hie]
    exact absurd (ht.inj i s.imemFree hi hf hsame) hif

/-- Freeing through a header of the array releases a slot that another
handle still holds. -/
theorem not_split_freed_proot {s : Session} (hs : SlotInv s) {j : ℕ} {g : Grant}
    {e : CocolTypeHeader} {base : Addr} {i : ℕ} (hg : s.live[j]? = some g)
    (hp : g.ptr = .proot base i) (he : s.pool.deref g.ptr = some e)
    (hf : s.pool.imemFree < s.pool.imemSize) :
    ¬Split (s.pool.freed g.ptr e) (Held (s.live.eraseIdx j)) := by
  intro ht
  have hi : i < s.pool.imemSize := hs.inside g (List.mem_of_getElem? hg) base i hp
  rw [hp] at he ht
  have hslot : ∀ l, (s.pool.freed (.proot base i) e).slotAt l =
      if l = i then s.pool.slotAt s.pool.imemFree
      else if l = s.pool.imemFree then s.pool.slotAt i else s.pool.slotAt l :=
    Pool.freed_proot_idx he
  -- The slot that ends up below the new boundary.
  obtain ⟨k, hk, l, hl, hkl⟩ : ∃ k, s.pool.Used k ∧ ∃ l ≤ s.pool.imemFree,
      (s.pool.freed (.proot base i) e).slotAt l = k := by
    by_cases hif : i < s.pool.imemFree
    · exact ⟨_, ⟨s.pool.imemFree, hf, le_rfl, rfl⟩, i, hif.le, by rw [hslot, if_pos rfl]⟩
    · refine ⟨_, ⟨i, hi, by omega, rfl⟩, s.pool.imemFree, le_rfl, ?_⟩
      by_cases hfi : s.pool.imemFree = i
      · rw [hslot, if_pos hfi, hfi]
      · rw [hslot, if_neg hfi, if_pos rfl]
  have hk' : ¬(s.pool.freed (.proot base i) e).Used k := by
    intro hused
    rw [Pool.used_iff_not_inFree ht.free_le ht.arranged] at hused
    exact hused.2 ⟨l, Nat.lt_succ_of_le hl, hkl⟩
  obtain ⟨rfl, hsole⟩ := sole_of_released hs.split ht hg id hk hk'
  obtain ⟨g', hmem, hslot', hptr⟩ := hs.original g.slot ⟨g, List.mem_of_getElem? hg, rfl⟩
  obtain ⟨l', hl'⟩ := List.mem_iff_getElem?.mp hmem
  refine hsole ⟨g', List.mem_eraseIdx_iff_getElem?.mpr ⟨l', ?_, hl'⟩, hslot'⟩
  rintro rfl
  rw [hg, Option.some.injEq] at hl'
  exact hptr base i (hl' ▸ hp)

theorem slotSafe_free {s : Session} (hs : SlotInv s) {j : ℕ} {g : Grant} {e : CocolTypeHeader}
    (hg : s.live[j]? = some g) (he : s.pool.deref g.ptr = some e)
    (ht : Partition (s.pool.freed g.ptr e) (Held (s.live.eraseIdx j))) :
    e.iheapIdx = g.slot ∧ g.slot = s.pool.slotAt s.pool.imemFree ∧
      ¬Held (s.live.eraseIdx j) g.slot := by
  have hmem : g ∈ s.live := List.mem_of_getElem? hg
  obtain ⟨l, hl, hfl, -⟩ := (hs.split.used_iff g.slot).mpr (.inr ⟨g, hmem, rfl⟩)
  have hf : s.pool.imemFree < s.pool.imemSize := hfl.trans_lt hl
  have hsplit : Split (s.pool.freed g.ptr e) (Held (s.live.eraseIdx j)) := by
    apply ht.split
    rw [s.pool.freed_imemSize]
    exact hf
  have hout : ∀ base i, g.ptr ≠ .proot base i := fun base i hp ↦
    not_split_freed_proot hs hg hp he hf hsplit
  have harr : Arranged (s.pool.freed g.ptr e).slotAt s.pool.imemSize := by
    rw [← s.pool.freed_imemSize g.ptr e]
    exact hsplit.arranged
  have heq := slot_eq_of_arranged hout hf hs.split.arranged harr
  rw [Pool.freed_of_eq he heq] at hsplit
  have hgone : ¬s.pool.released.Used (s.pool.slotAt s.pool.imemFree) := by
    rintro ⟨i, hi, hfi, heq⟩
    have hif := hs.split.arranged.inj i _ hi hf heq
    simp only [Pool.released] at hfi
    omega
  obtain ⟨hslot, hsole⟩ :=
    sole_of_released hs.split hsplit hg id ⟨_, hf, le_rfl, rfl⟩ hgone
  exact ⟨heq.trans hslot, hslot.symm, hslot ▸ hsole⟩

theorem slotSafe_of_partition {s t : Session} {op : Op} (hs : SlotInv s) (h : step s op = .ok t)
    (ht : Partition t.pool (Held t.live)) : SlotSafe s op := by
  cases stepCase hs.shape h with
  | malloc v env p t e _ hc he =>
      intro i hi hres
      cases hc with
      | hit l hl _ =>
          obtain rfl : l = i := Option.some.inj (hl.symm.trans hi)
          have hk : e.iheapIdx = s.pool.slotAt l := Pool.slot_of_hit he
          have hsplit := ht.split hs.split.free_le
          exact hsplit.disjoint _ hres (held_cons.mpr (.inl hk.symm))
      | take hmiss _ => simp [hmiss] at hi
      | refill hmiss _ _ _ => simp [hmiss] at hi
      | grow hmiss _ _ _ _ _ _ => simp [hmiss] at hi
  | null v env t hc =>
      intro i hi
      cases hc with
      | noRoot hmiss _ _ _ => simp [hmiss] at hi
      | noData hmiss _ _ _ _ _ => simp [hmiss] at hi
  | init p v env e _ _ _ _ => trivial
  | free j g e hg _ he =>
      intro g' hg' e' he'
      obtain rfl : g = g' := Option.some.inj (hg.symm.trans hg')
      obtain rfl : e = e' := Option.some.inj (he.symm.trans he')
      exact slotSafe_free hs hg he ht
  | dup p e he =>
      intro e' he'
      obtain rfl : e = e' := Option.some.inj (he.symm.trans he')
      have hsplit := ht.split hs.split.free_le
      have hheld : Held (⟨.client s.pool.clientNum, e.iheapIdx, e.privData, s.pool.pmemData⟩ ::
        s.live) e.iheapIdx := held_cons.mpr (.inl rfl)
      have hused : s.pool.Used e.iheapIdx := (hsplit.used_iff _).mpr (.inr hheld)
      exact ((hs.split.used_iff _).mp hused).resolve_left fun hr ↦ hsplit.disjoint _ hr hheld

/-! ## The pool after initialisation, and the main result -/

def PoolDecl.blank (d : PoolDecl) (a b : Addr) : Pool :=
  { d.pool with
    proot := a
    headers := fun i ↦ ⟨d.pdataType, b + mmPoolRoundup d.imemLen 4 * i, 0, i⟩
    headerCap := mmPoolRoundup d.imemSize 4
    pmemData := b
    dataCap := mmPoolRoundup d.imemSize 4 * mmPoolRoundup d.imemLen 4
    imemSize := mmPoolRoundup d.imemSize 4
    imemFree := mmPoolRoundup d.imemSize 4
    imemLen := mmPoolRoundup d.imemLen 4
    binitialized := true
    buffMask := 4
    heapCalls := [.malloc a, .malloc b] }

theorem PoolDecl.blank_split (d : PoolDecl) (a b : Addr) : Split (d.blank a b) (Held []) := by
  have hempty : ∀ k, ¬(d.blank a b).Reserved k := Pool.not_reserved rfl
  refine ⟨le_rfl, arranged_id _, fun k ↦ ?_, fun k hk ↦ absurd hk (hempty k), ?_⟩
  · constructor
    · rintro ⟨i, hi, hfi, -⟩
      exact absurd hfi (Nat.not_le.mpr hi)
    · rintro (hk | ⟨g, hg, -⟩)
      · exact absurd hk (hempty k)
      · simp at hg
  · intro i j hi hi'
    exact absurd hi' (Nat.not_lt.mpr hi)

theorem PoolDecl.initial_slotInv (d : PoolDecl) (a b : Addr) : SlotInv ⟨d.initial a b, []⟩ := by
  refine ⟨d.initial_shape a b, by simp [Inside], ?_, by simp [Original, Held]⟩
  exact (d.blank_split a b).refill rfl (le_mmPoolRoundup d.size_pos)

theorem denoted_iff_held {s : Session} (hs : Stable s) (k : ℕ) :
    Denoted s k ↔ Held s.live k := by
  constructor
  · rintro ⟨g, hg, e, he, rfl⟩
    obtain ⟨e', he', hslot, -⟩ := hs g hg
    obtain rfl : e = e' := Option.some.inj (he.symm.trans he')
    exact ⟨g, hg, hslot.symm⟩
  · rintro ⟨g, hg, rfl⟩
    obtain ⟨e, he, hslot, -⟩ := hs g hg
    exact ⟨g, hg, e, he, hslot⟩

theorem partition_iff_slotSafe {d : PoolDecl} {s : Session} (hs : Started d s) (ops : List Op) :
    (EachStep step SlotSafe s ops → Always step (fun t ↦ Partition t.pool (Held t.live)) s ops) ∧
    (∀ t, run step s ops = .ok t →
      Always step (fun t ↦ Partition t.pool (Held t.live)) s ops → EachStep step SlotSafe s ops) ∧
    (EachStep step SlotSafe s ops → EachStep step HandleSafe s ops →
      Always step (fun t ↦ Partition t.pool (Denoted t)) s ops) := by
  have halways : EachStep step SlotSafe s ops → Always step SlotInv s ops := by
    obtain ⟨a, b, rfl⟩ := hs.eq_initial
    exact always_of_eachStep (fun _ _ _ ↦ step_slotInv) (d.initial_slotInv a b)
  refine ⟨fun h ↦ (halways h).mono fun _ ht ↦ ht.split.partition, fun t hrun h ↦ ?_,
    fun h h' ↦ ?_⟩
  · obtain ⟨a, b, rfl⟩ := hs.eq_initial
    exact (always_iff_eachStep (fun _ ht ↦ ht.split.partition) (fun _ _ _ ↦ step_slotInv)
      (fun _ _ _ ↦ slotSafe_of_partition) (d.initial_slotInv a b) hrun).mp h
  · refine ((halways h).and (always_stableInv hs h')).mono fun t ht ↦ ?_
    exact (ht.1.split.congr (denoted_iff_held ht.2.stable)).partition

/-- One value interned and freed: the swap writes the freed slot over the
name of the slot at the boundary, which is then in no header of the array. -/
theorem partition_free_once :
    Started (gCharHeader 0x1000 0x2000) ⟨(gCharHeader 0x1000 0x2000).initial 0x3000 0x4000, []⟩ ∧
    ¬Always step (fun t ↦ Partition t.pool (Held t.live))
      ⟨(gCharHeader 0x1000 0x2000).initial 0x3000 0x4000, []⟩
      [.malloc [0, 0, 0, 7] noMemory, .init (.buff 0) [0, 0, 0, 7] noMemory, .free 0] ∧
    ¬Always step (fun t ↦ Partition t.pool (Denoted t))
      ⟨(gCharHeader 0x1000 0x2000).initial 0x3000 0x4000, []⟩
      [.malloc [0, 0, 0, 7] noMemory, .init (.buff 0) [0, 0, 0, 7] noMemory, .free 0] := by
  have hperm : ¬Always step (fun t ↦ ((List.range t.pool.imemSize).map t.pool.slotAt).Perm
      (List.range t.pool.imemSize)) ⟨(gCharHeader 0x1000 0x2000).initial 0x3000 0x4000, []⟩
      [.malloc [0, 0, 0, 7] noMemory, .init (.buff 0) [0, 0, 0, 7] noMemory, .free 0] := by
    decide +kernel
  exact ⟨started_initial _ _ _, fun h ↦ hperm (h.mono fun _ ht ↦ ht.perm),
    fun h ↦ hperm (h.mono fun _ ht ↦ ht.perm)⟩

theorem partition_iff_slotSafe_char :
    Always step (fun t ↦ Partition t.pool (Held t.live) ∧ Partition t.pool (Denoted t))
      ⟨(gCharHeader 0x1000 0x2000).initial 0x3000 0x4000, []⟩
      [.malloc [0, 0, 0, 1] noMemory, .malloc [0, 0, 0, 2] noMemory,
        .malloc [0, 0, 0, 3] noMemory, .malloc [0, 0, 0, 4] noMemory, .free 0] := by
  obtain ⟨hheld, -, hdenoted⟩ :=
    partition_iff_slotSafe (started_initial (gCharHeader 0x1000 0x2000) 0x3000 0x4000)
      [.malloc [0, 0, 0, 1] noMemory, .malloc [0, 0, 0, 2] noMemory,
        .malloc [0, 0, 0, 3] noMemory, .malloc [0, 0, 0, 4] noMemory, .free 0]
  exact (hheld (by decide +kernel)).and (hdenoted (by decide +kernel) (by decide +kernel))

end Cocool.Mmp
