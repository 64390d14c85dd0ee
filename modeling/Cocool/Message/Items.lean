import Cocool.Lib.Chain

/-!
# Message items on their lists

The free list and the worker queues of `co_message.c` run through one field
`pnext` of the items.  Each of the four operations is an operation on plain
lists of items, as long as no item is on two of them.
-/

namespace Cocool.Message

open Lib

/-- `g_pms_quenes`, the `phead` and `ptail` of each worker's queue, and the
`pnext` of each item. -/
structure Lists (ι κ : Type*) where
  pnext : ι → Option ι
  gPmsQuenes : Option ι
  phead : κ → Option ι
  ptail : κ → Option ι

section

variable {ι κ : Type*} [DecidableEq ι] [DecidableEq κ]

def msItemAlloc (s : Lists ι κ) : Option ι × Lists ι κ :=
  match s.gPmsQuenes with
  | some item => (some item, { s with gPmsQuenes := s.pnext item })
  | none => (none, s)

def msItemFree (s : Lists ι κ) (item : ι) : Lists ι κ :=
  { s with
    pnext := Function.update s.pnext item s.gPmsQuenes
    gPmsQuenes := some item }

def msQuenePush (s : Lists ι κ) (k : κ) (item : ι) : Lists ι κ :=
  let s := { s with pnext := Function.update s.pnext item none }
  let s := match s.ptail k with
    | none => { s with phead := Function.update s.phead k (some item) }
    | some tail => { s with pnext := Function.update s.pnext tail (some item) }
  { s with ptail := Function.update s.ptail k (some item) }

def msQuenePop (s : Lists ι κ) (k : κ) : Option ι × Lists ι κ :=
  let item := s.phead k
  let s := match item with
    | some a => { s with phead := Function.update s.phead k (s.pnext a) }
    | none => s
  if s.phead k = none then (item, { s with ptail := Function.update s.ptail k none })
  else (item, s)

theorem msQuenePush_pnext (s : Lists ι κ) (k : κ) (a : ι) :
    (msQuenePush s k a).pnext = match s.ptail k with
      | none => Function.update s.pnext a none
      | some b => Function.update (Function.update s.pnext a none) b (some a) := by
  cases h : s.ptail k <;> simp only [msQuenePush, h]

omit [DecidableEq ι] in
theorem msQuenePop_links (s : Lists ι κ) (k : κ) :
    (msQuenePop s k).1 = s.phead k ∧ (msQuenePop s k).2.pnext = s.pnext ∧
      (msQuenePop s k).2.gPmsQuenes = s.gPmsQuenes ∧
      (msQuenePop s k).2.phead = Function.update s.phead k ((s.phead k).bind s.pnext) ∧
      ∀ l, (msQuenePop s k).2.ptail l =
        if l = k ∧ (s.phead k).bind s.pnext = none then none else s.ptail l := by
  cases hp : s.phead k with
  | none =>
      have hself : Function.update s.phead k none = s.phead :=
        Function.update_eq_self_iff.mpr hp.symm
      simp [msQuenePop, hp, hself, Function.update_apply]
  | some a => cases hn : s.pnext a <;> simp [msQuenePop, hp, hn, Function.update_apply]

omit [DecidableEq ι] in
theorem mem_pushed (quene : κ → List ι) (k : κ) {a b : ι} (hba : b ≠ a) (l : κ) :
    b ∈ Function.update quene k (quene k ++ [a]) l ↔ b ∈ quene l := by
  by_cases hl : l = k
  · subst hl
    simp [hba]
  · simp [hl]

/-- The links describe the free list `free` and the queues `quene`, and no
item is on two of them. -/
structure Represents (s : Lists ι κ) (free : List ι) (quene : κ → List ι) : Prop where
  chain_free : Chain s.pnext s.gPmsQuenes free
  chain_quene : ∀ k, Chain s.pnext (s.phead k) (quene k)
  ptail : ∀ k, s.ptail k = (quene k).getLast?
  free_quene : ∀ a ∈ free, ∀ k, a ∉ quene k
  quene_quene : ∀ k l, k ≠ l → ∀ a ∈ quene k, a ∉ quene l

namespace Represents

variable {s : Lists ι κ} {free : List ι} {quene : κ → List ι}

omit [DecidableEq ι] [DecidableEq κ] in
theorem of_free {pnext : ι → Option ι} {gPmsQuenes : Option ι}
    (h : Chain pnext gPmsQuenes free) : Represents (⟨pnext, gPmsQuenes, fun _ ↦ none,
      fun _ ↦ none⟩ : Lists ι κ) free fun _ ↦ [] :=
  ⟨h, fun _ ↦ rfl, fun _ ↦ rfl, by simp, by simp⟩

omit [DecidableEq ι] [DecidableEq κ] in
theorem unique {free' : List ι} {quene' : κ → List ι} (h : Represents s free quene)
    (h' : Represents s free' quene') : free = free' ∧ quene = quene' :=
  ⟨h.chain_free.unique h'.chain_free, funext fun k ↦ (h.chain_quene k).unique (h'.chain_quene k)⟩

omit [DecidableEq ι] [DecidableEq κ] in
theorem phead_eq_none_iff (h : Represents s free quene) (k : κ) :
    s.phead k = none ↔ s.ptail k = none := by
  rw [(h.chain_quene k).head_eq, h.ptail, List.head?_eq_none_iff, List.getLast?_eq_none_iff]

omit [DecidableEq ι] [DecidableEq κ] in
theorem alloc (h : Represents s free quene) :
    (msItemAlloc s).1 = free.head? ∧ Represents (msItemAlloc s).2 free.tail quene := by
  cases free with
  | nil =>
      have hnone : s.gPmsQuenes = none := h.chain_free
      simp only [msItemAlloc, hnone]
      exact ⟨rfl, h⟩
  | cons a free =>
      obtain ⟨hsome, hrest⟩ := h.chain_free
      simp only [msItemAlloc, hsome]
      exact ⟨rfl, hrest, h.chain_quene, h.ptail,
        fun b hb ↦ h.free_quene b (List.mem_cons_of_mem a hb), h.quene_quene⟩

omit [DecidableEq κ] in
/-- `ms_item_free` puts an item that is on no list in front of the free
list. -/
theorem release (h : Represents s free quene) {a : ι} (hfree : a ∉ free)
    (hquene : ∀ k, a ∉ quene k) : Represents (msItemFree s a) (a :: free) quene := by
  refine ⟨⟨rfl, ?_⟩, fun k ↦ (h.chain_quene k).update _ (hquene k), h.ptail, ?_, h.quene_quene⟩
  · simp only [msItemFree, Function.update_self]
    exact h.chain_free.update _ hfree
  · intro b hb k
    rcases List.mem_cons.mp hb with rfl | hb
    · exact hquene k
    · exact h.free_quene b hb k

theorem chain_push (h : Represents s free quene) (k : κ) {a : ι} (hquene : a ∉ quene k) :
    Chain (msQuenePush s k a).pnext ((msQuenePush s k a).phead k) (quene k ++ [a]) := by
  have htail := h.ptail k
  rw [msQuenePush_pnext]
  cases hp : s.ptail k with
  | none =>
      have hnil : quene k = [] := List.getLast?_eq_none_iff.mp (htail.symm.trans hp)
      simp [msQuenePush, hp, hnil, Chain]
  | some b =>
      have hhead : (msQuenePush s k a).phead k = s.phead k := by simp only [msQuenePush, hp]
      rw [hhead]
      exact ((h.chain_quene k).update none hquene).concat (htail.symm.trans hp) hquene
        (Function.update_self _ _ _)

/-- A push only touches the links of its item and of the last item of its
queue. -/
theorem chain_push_other (h : Represents s free quene) (k : κ) {a : ι} {p : Option ι}
    {l : List ι} (hl : Chain s.pnext p l) (ha : a ∉ l) (hdisj : ∀ b ∈ quene k, b ∉ l) :
    Chain (msQuenePush s k a).pnext p l := by
  have htail := h.ptail k
  rw [msQuenePush_pnext]
  cases hp : s.ptail k with
  | none => exact hl.update none ha
  | some b =>
      have hb : b ∈ quene k := List.mem_of_getLast? (htail.symm.trans hp)
      exact (hl.update none ha).update (some a) (hdisj b hb)

theorem push (h : Represents s free quene) (k : κ) {a : ι} (hfree : a ∉ free)
    (hquene : ∀ l, a ∉ quene l) :
    Represents (msQuenePush s k a) free (Function.update quene k (quene k ++ [a])) := by
  have hhead : ∀ l, l ≠ k → (msQuenePush s k a).phead l = s.phead l := by
    intro l hl
    cases hp : s.ptail k <;> simp [msQuenePush, hp, hl]
  have htail : (msQuenePush s k a).ptail = Function.update s.ptail k (some a) := by
    cases hp : s.ptail k <;> simp only [msQuenePush, hp]
  have hgPms : (msQuenePush s k a).gPmsQuenes = s.gPmsQuenes := by
    cases hp : s.ptail k <;> simp only [msQuenePush, hp]
  refine ⟨?_, fun l ↦ ?_, fun l ↦ ?_, fun b hb l ↦ ?_, fun l m hlm b hb ↦ ?_⟩
  · rw [hgPms]
    exact h.chain_push_other k h.chain_free hfree fun b hb hb' ↦ h.free_quene b hb' k hb
  · by_cases hl : l = k
    · subst hl
      rw [Function.update_self]
      exact h.chain_push l (hquene l)
    · rw [Function.update_of_ne hl, hhead l hl]
      exact h.chain_push_other k (h.chain_quene l) (hquene l)
        (h.quene_quene k l (Ne.symm hl))
  · rw [htail]
    by_cases hl : l = k
    · subst hl
      simp
    · simpa [Function.update_of_ne hl] using h.ptail l
  · have hba : b ≠ a := by
      rintro rfl
      exact hfree hb
    rw [mem_pushed quene k hba]
    exact h.free_quene b hb l
  · by_cases hba : b = a
    · subst hba
      have honly : ∀ l, b ∈ Function.update quene k (quene k ++ [b]) l → l = k := by
        intro l hl
        by_contra hlk
        rw [Function.update_of_ne hlk] at hl
        exact hquene l hl
      exact fun hbm ↦ hlm ((honly l hb).trans (honly m hbm).symm)
    · rw [mem_pushed quene k hba] at hb ⊢
      exact h.quene_quene l m hlm b hb

omit [DecidableEq ι] in
theorem pop (h : Represents s free quene) (k : κ) :
    (msQuenePop s k).1 = (quene k).head? ∧
      Represents (msQuenePop s k).2 free (Function.update quene k (quene k).tail) := by
  obtain ⟨hitem, hnext, hgPms, hhead, htail⟩ := msQuenePop_links s k
  have hlink : Chain s.pnext ((s.phead k).bind s.pnext) (quene k).tail := by
    have hchain := h.chain_quene k
    cases hq : quene k with
    | nil =>
        rw [hq] at hchain
        rw [show s.phead k = none from hchain]
        rfl
    | cons a l =>
        rw [hq] at hchain
        rw [hchain.1]
        exact hchain.2
  have hsub : ∀ l, ∀ a ∈ Function.update quene k (quene k).tail l, a ∈ quene l := by
    intro l a ha
    by_cases hl : l = k
    · subst hl
      rw [Function.update_self] at ha
      exact List.mem_of_mem_tail ha
    · rwa [Function.update_of_ne hl] at ha
  refine ⟨?_, ?_, fun l ↦ ?_, fun l ↦ ?_, fun b hb l hbl ↦ ?_, fun l m hlm b hb hbm ↦ ?_⟩
  · rw [hitem, (h.chain_quene k).head_eq]
  · rw [hnext, hgPms]
    exact h.chain_free
  · rw [hnext, hhead]
    by_cases hl : l = k
    · subst hl
      rw [Function.update_self, Function.update_self]
      exact hlink
    · rw [Function.update_of_ne hl, Function.update_of_ne hl]
      exact h.chain_quene l
  · rw [htail, hlink.head_eq]
    by_cases hl : l = k
    · subst hl
      rw [Function.update_self]
      cases hq : quene l with
      | nil => simp
      | cons a rest =>
          cases rest with
          | nil => simp
          | cons b rest => simp [h.ptail, hq]
    · simp [hl, h.ptail l]
  · exact h.free_quene b hb l (hsub l b hbl)
  · exact h.quene_quene l m hlm b (hsub l b hb) (hsub m b hbm)

end Represents

end

end Cocool.Message
