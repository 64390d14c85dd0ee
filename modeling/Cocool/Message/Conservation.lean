import Cocool.Lib.Runs
import Cocool.Message.Items
import Mathlib.Algebra.Order.BigOperators.Group.Finset
import Mathlib.Data.Fin.VecNotation
import Mathlib.Data.Fintype.BigOperators

/-!
# No item is lost or duplicated

Threads take items from the free list and the queues and put them back, one
call at a time.  Counted over the free list, the queues and the hands of the
threads, each item stays where it is exactly once.
-/

namespace Cocool.Message

open Lib

/-- The lists, the items each thread holds, and what was pushed to and
popped from each queue so far. -/
structure Desk (ι κ τ : Type*) where
  lists : Lists ι κ
  held : τ → List ι
  pushed : κ → List ι
  popped : κ → List ι

inductive Call (ι κ τ : Type*)
  | alloc (t : τ)
  | free (t : τ) (item : ι)
  | push (t : τ) (k : κ) (item : ι)
  | pop (t : τ) (k : κ)

inductive Misuse
  | notHeld
  deriving DecidableEq

namespace Desk

variable {ι κ τ : Type*} [DecidableEq ι] [DecidableEq κ] [DecidableEq τ]

def take (s : Desk ι κ τ) (t : τ) (item : Option ι) (lists : Lists ι κ) : Desk ι κ τ :=
  { s with
    lists := lists
    held := Function.update s.held t (item.toList ++ s.held t) }

def give (s : Desk ι κ τ) (t : τ) (item : ι) (lists : Lists ι κ) : Desk ι κ τ :=
  { s with
    lists := lists
    held := Function.update s.held t ((s.held t).erase item) }

def step (s : Desk ι κ τ) : Call ι κ τ → Except Misuse (Desk ι κ τ)
  | .alloc t => .ok (s.take t (msItemAlloc s.lists).1 (msItemAlloc s.lists).2)
  | .free t item =>
      if item ∈ s.held t then .ok (s.give t item (msItemFree s.lists item))
      else .error .notHeld
  | .push t k item =>
      if item ∈ s.held t then
        .ok { s.give t item (msQuenePush s.lists k item) with
          pushed := Function.update s.pushed k (s.pushed k ++ [item]) }
      else .error .notHeld
  | .pop t k =>
      .ok { s.take t (msQuenePop s.lists k).1 (msQuenePop s.lists k).2 with
        popped := Function.update s.popped k (s.popped k ++ (msQuenePop s.lists k).1.toList) }

/-- All items are on the free list and nothing was asked for yet. -/
structure Started (items : List ι) (s : Desk ι κ τ) : Prop where
  chain : Chain s.lists.pnext s.lists.gPmsQuenes items
  phead : ∀ k, s.lists.phead k = none
  ptail : ∀ k, s.lists.ptail k = none
  held : ∀ t, s.held t = []
  pushed : ∀ k, s.pushed k = []
  popped : ∀ k, s.popped k = []

variable [Fintype κ] [Fintype τ]

/-- How often an item occurs on the lists and in the threads' hands. -/
def occurrences (s : Desk ι κ τ) (free : List ι) (quene : κ → List ι) (a : ι) : ℕ :=
  free.count a + ∑ k, (quene k).count a + ∑ t, (s.held t).count a

/-- The links describe disjoint lists without cycles, on which and in the
threads' hands each item is exactly once; the queues return what was pushed
in its order; and a call returns NULL on empty lists alone. -/
structure Conserved (items : List ι) (s : Desk ι κ τ) (free : List ι) (quene : κ → List ι) :
    Prop where
  lists : Represents s.lists free quene
  acyclic : free.Nodup ∧ ∀ k, (quene k).Nodup
  once : ∀ a, s.occurrences free quene a = items.count a
  ends : ∀ k, s.lists.phead k = none ↔ s.lists.ptail k = none
  fifo : ∀ k, s.pushed k = s.popped k ++ quene k
  alloc_none : (msItemAlloc s.lists).1 = none ↔ free = []
  pop_none : ∀ k, (msQuenePop s.lists k).1 = none ↔ quene k = []

omit [DecidableEq τ] in
theorem Represents.conserved {items : List ι} {s : Desk ι κ τ} {free : List ι}
    {quene : κ → List ι} (h : Represents s.lists free quene)
    (honce : ∀ a, s.occurrences free quene a = items.count a)
    (hfifo : ∀ k, s.pushed k = s.popped k ++ quene k) : s.Conserved items free quene := by
  refine ⟨h, ⟨h.chain_free.nodup, fun k ↦ (h.chain_quene k).nodup⟩, honce, h.phead_eq_none_iff,
    hfifo, ?_, fun k ↦ ?_⟩
  · rw [h.alloc.1, List.head?_eq_none_iff]
  · rw [(h.pop k).1, List.head?_eq_none_iff]

/-! ## Counting -/

theorem sum_update_count {β : Type*} [Fintype β] [DecidableEq β] (f : β → List ι) (b : β)
    (l : List ι) (a : ι) :
    (∑ x, (Function.update f b l x).count a) + (f b).count a =
      (∑ x, (f x).count a) + l.count a := by
  have hrest : ∑ x ∈ {b}ᶜ, (Function.update f b l x).count a = ∑ x ∈ {b}ᶜ, (f x).count a := by
    refine Finset.sum_congr rfl fun x hx ↦ ?_
    have hxb : x ≠ b := by simpa using hx
    rw [Function.update_of_ne hxb]
  rw [Fintype.sum_eq_add_sum_compl b, Fintype.sum_eq_add_sum_compl b fun x ↦ (f x).count a, hrest,
    Function.update_self]
  omega

omit [DecidableEq κ] [DecidableEq τ] in
theorem not_listed {items : List ι} (hitems : items.Nodup) {s : Desk ι κ τ} {free : List ι}
    {quene : κ → List ι} (honce : ∀ a, s.occurrences free quene a = items.count a) {t : τ}
    {item : ι} (hitem : item ∈ s.held t) : item ∉ free ∧ ∀ k, item ∉ quene k := by
  have htotal := honce item
  have hmax : items.count item ≤ 1 := List.nodup_iff_count_le_one.mp hitems item
  have hheld : (s.held t).count item ≤ ∑ t, (s.held t).count item :=
    Finset.single_le_sum (f := fun t ↦ (s.held t).count item) (fun _ _ ↦ Nat.zero_le _)
      (Finset.mem_univ t)
  have hpos : 0 < (s.held t).count item := List.count_pos_iff.mpr hitem
  simp only [occurrences] at htotal
  refine ⟨fun hfree ↦ ?_, fun k hk ↦ ?_⟩
  · have hcount : 0 < free.count item := List.count_pos_iff.mpr hfree
    omega
  · have hcount : 0 < (quene k).count item := List.count_pos_iff.mpr hk
    have hquene : (quene k).count item ≤ ∑ k, (quene k).count item :=
      Finset.single_le_sum (f := fun k ↦ (quene k).count item) (fun _ _ ↦ Nat.zero_le _)
        (Finset.mem_univ k)
    omega

/-! ## One call -/

theorem step_conserved {items : List ι} (hitems : items.Nodup) {s u : Desk ι κ τ}
    {call : Call ι κ τ} (hs : ∃ free quene, s.Conserved items free quene)
    (h : step s call = .ok u) : ∃ free quene, u.Conserved items free quene := by
  obtain ⟨free, quene, hs⟩ := hs
  cases call with
  | alloc t =>
      obtain rfl := Except.ok.inj h
      refine ⟨free.tail, quene, Represents.conserved hs.lists.alloc.2 (fun a ↦ ?_) hs.fifo⟩
      have htotal := hs.once a
      have hheld := sum_update_count s.held t (free.head?.toList ++ s.held t) a
      have hcount : free.count a = free.head?.toList.count a + free.tail.count a := by
        cases free with
        | nil => rfl
        | cons b free => simp [List.count_cons, Nat.add_comm]
      simp only [occurrences, take, hs.lists.alloc.1, List.count_append] at htotal hheld ⊢
      omega
  | free t item =>
      simp only [step] at h
      split_ifs at h with hitem
      obtain rfl := Except.ok.inj h
      obtain ⟨hfree, hquene⟩ := not_listed hitems hs.once hitem
      refine ⟨item :: free, quene, Represents.conserved (hs.lists.release hfree hquene)
        (fun a ↦ ?_) hs.fifo⟩
      have htotal := hs.once a
      have hheld := sum_update_count s.held t ((s.held t).erase item) a
      have hcount := (List.perm_cons_erase hitem).count_eq a
      simp only [occurrences, give, List.count_cons] at htotal hheld hcount ⊢
      omega
  | push t k item =>
      simp only [step] at h
      split_ifs at h with hitem
      obtain rfl := Except.ok.inj h
      obtain ⟨hfree, hquene⟩ := not_listed hitems hs.once hitem
      refine ⟨free, _, Represents.conserved (hs.lists.push k hfree hquene) (fun a ↦ ?_)
        fun l ↦ ?_⟩
      · have htotal := hs.once a
        have hheld := sum_update_count s.held t ((s.held t).erase item) a
        have hlist := sum_update_count quene k (quene k ++ [item]) a
        have hcount := (List.perm_cons_erase hitem).count_eq a
        simp only [occurrences, give, List.count_cons, List.count_append, List.count_nil]
          at htotal hheld hcount hlist ⊢
        omega
      · by_cases hl : l = k
        · subst hl
          simp [give, hs.fifo l]
        · simpa [give, hl] using hs.fifo l
  | pop t k =>
      obtain rfl := Except.ok.inj h
      obtain ⟨hitem, hlists⟩ := hs.lists.pop k
      have hsplit : quene k = (quene k).head?.toList ++ (quene k).tail := by
        cases quene k <;> rfl
      refine ⟨free, _, Represents.conserved hlists (fun a ↦ ?_) fun l ↦ ?_⟩
      · have htotal := hs.once a
        have hheld := sum_update_count s.held t ((quene k).head?.toList ++ s.held t) a
        have hlist := sum_update_count quene k (quene k).tail a
        have hcount := congrArg (List.count a) hsplit
        simp only [occurrences, take, hitem, List.count_append] at htotal hheld hlist hcount ⊢
        omega
      · by_cases hl : l = k
        · subst hl
          simp only [take, hitem, Function.update_self, List.append_assoc, ← hsplit]
          exact hs.fifo l
        · simpa [take, hl] using hs.fifo l

omit [DecidableEq τ] in
theorem Started.conserved {items : List ι} {s : Desk ι κ τ} (hs : Started items s) :
    s.Conserved items items fun _ ↦ [] := by
  refine Represents.conserved ⟨hs.chain, hs.phead, hs.ptail, by simp, by simp⟩ (fun a ↦ ?_)
    fun k ↦ ?_
  · simp [occurrences, hs.held]
  · simp [hs.pushed, hs.popped]

end Desk

/-- From a free list of any length and empty queues, any number of threads
and queues and any order of the calls, items are conserved and the queues
are first in, first out. -/
theorem conserved_of_started {ι κ τ : Type*} [DecidableEq ι] [DecidableEq κ] [DecidableEq τ]
    [Fintype κ] [Fintype τ] {items : List ι} {s : Desk ι κ τ} (hs : Desk.Started items s)
    (calls : List (Call ι κ τ)) :
    Always Desk.step (fun u ↦ ∃ free quene, u.Conserved items free quene) s calls :=
  always_of_step (fun _ _ _ ↦ Desk.step_conserved hs.chain.nodup)
    ⟨items, fun _ ↦ [], hs.conserved⟩ calls

/-- Two items, one queue: the acceptor passes an item to a worker, which
puts it back. -/
theorem conserved_two_items :
    Always Desk.step
      (fun u : Desk (Fin 2) (Fin 1) (Fin 2) ↦ ∃ free quene, u.Conserved [0, 1] free quene)
      ⟨⟨![some 1, none], some 0, fun _ ↦ none, fun _ ↦ none⟩, fun _ ↦ [], fun _ ↦ [], fun _ ↦ []⟩
      [.alloc 0, .push 0 0 0, .pop 1 0, .free 1 0] := by
  have hs : Desk.Started (κ := Fin 1) (τ := Fin 2) [0, 1]
      ⟨⟨![some 1, none], some 0, fun _ ↦ none, fun _ ↦ none⟩, fun _ ↦ [], fun _ ↦ [],
        fun _ ↦ []⟩ :=
    ⟨⟨rfl, rfl, rfl⟩, fun _ ↦ rfl, fun _ ↦ rfl, fun _ ↦ rfl, fun _ ↦ rfl, fun _ ↦ rfl⟩
  exact conserved_of_started hs _

end Cocool.Message
