import Mathlib.Data.List.Basic
import Mathlib.Logic.Function.Basic

/-!
# Linked lists in a heap

The cells are the elements of `α`, and `next` gives the cell each of them
links to, if any.  A chain is the list of cells met on the way from a
starting link to the end.
-/

namespace Lib

variable {α : Type*}

/-- Following `next` from the link `p` visits exactly `l` and ends. -/
def Chain (next : α → Option α) : Option α → List α → Prop
  | p, [] => p = none
  | p, a :: l => p = some a ∧ Chain next (next a) l

namespace Chain

variable {next next' : α → Option α} {p : Option α} {l l' : List α}

theorem head_eq (h : Chain next p l) : p = l.head? := by
  cases l with
  | nil => exact h
  | cons a l => exact h.1

theorem eq_nil (h : Chain next none l) : l = [] := by
  cases l with
  | nil => rfl
  | cons a l => cases h.1

theorem unique (h : Chain next p l) (h' : Chain next p l') : l = l' := by
  induction l generalizing p l' with
  | nil =>
      obtain rfl : p = none := h
      exact h'.eq_nil.symm
  | cons a l ih =>
      obtain ⟨rfl, hrest⟩ := h
      cases l' with
      | nil => cases h'
      | cons b l' =>
          obtain ⟨hab, hrest'⟩ := h'
          obtain rfl : a = b := Option.some.inj hab
          rw [ih hrest hrest']

theorem suffix {a : α} {l₁ l₂ : List α} (h : Chain next p (l₁ ++ a :: l₂)) :
    Chain next (some a) (a :: l₂) := by
  induction l₁ generalizing p with
  | nil => exact ⟨rfl, h.2⟩
  | cons b l₁ ih => exact ih h.2

/-- A chain that ends never meets a cell twice. -/
theorem nodup (h : Chain next p l) : l.Nodup := by
  induction l generalizing p with
  | nil => exact List.nodup_nil
  | cons a l ih =>
      refine List.nodup_cons.mpr ⟨fun ha ↦ ?_, ih h.2⟩
      obtain ⟨l₁, l₂, hl⟩ := List.append_of_mem ha
      have hrest : Chain next (some a) (a :: l₂) := suffix (hl ▸ h.2)
      have heq : a :: l = a :: l₂ := unique ⟨rfl, h.2⟩ hrest
      have hlen := congrArg List.length (List.cons.inj heq).2
      rw [hl] at hlen
      simp only [List.length_append, List.length_cons] at hlen
      omega

theorem congr (h : Chain next p l) (hnext : ∀ a ∈ l, next' a = next a) : Chain next' p l := by
  induction l generalizing p with
  | nil => exact h
  | cons a l ih =>
      refine ⟨h.1, ?_⟩
      rw [hnext a List.mem_cons_self]
      exact ih h.2 fun b hb ↦ hnext b (List.mem_cons_of_mem a hb)

/-- Cells in a row, each linked to the one after it and the last to none. -/
theorem of_range {f : ℕ → α} {n : ℕ} (hnext : ∀ i < n, next (f i) = some (f (i + 1)))
    (hlast : next (f n) = none) : Chain next (some (f 0)) ((List.range (n + 1)).map f) := by
  induction n generalizing f with
  | zero => exact ⟨rfl, hlast⟩
  | succ n ih =>
      rw [List.range_succ_eq_map, List.map_cons, List.map_map]
      refine ⟨rfl, ?_⟩
      rw [hnext 0 (Nat.succ_pos n)]
      exact ih (f := f ∘ Nat.succ) (fun i hi ↦ hnext (i + 1) (Nat.succ_lt_succ hi)) hlast

/-- The same list under other names for the cells. -/
theorem of_map {β : Type*} {f : β → α} {g : α → Option β} {q : List β} (hg : ∀ b, g (f b) = some b)
    (h : Chain next p (q.map f)) : Chain (fun b ↦ (next (f b)).bind g) (p.bind g) q := by
  induction q generalizing p with
  | nil =>
      obtain rfl : p = none := h
      rfl
  | cons b q ih =>
      obtain ⟨rfl, hrest⟩ := h
      exact ⟨hg b, ih hrest⟩

variable [DecidableEq α]

theorem update {a : α} (q : Option α) (h : Chain next p l) (ha : a ∉ l) :
    Chain (Function.update next a q) p l := by
  refine h.congr fun b hb ↦ ?_
  have hba : b ≠ a := by
    rintro rfl
    exact ha hb
  exact Function.update_of_ne hba _ _

theorem concat {a b : α} (h : Chain next p l) (hb : l.getLast? = some b) (ha : a ∉ l)
    (hend : next a = none) : Chain (Function.update next b (some a)) p (l ++ [a]) := by
  induction l generalizing p with
  | nil => simp at hb
  | cons c l ih =>
      have hac : a ≠ c := fun heq ↦ ha (heq ▸ List.mem_cons_self)
      have hal : a ∉ l := fun hmem ↦ ha (List.mem_cons_of_mem c hmem)
      refine ⟨h.1, ?_⟩
      cases l with
      | nil =>
          obtain rfl : c = b := by simpa using hb
          exact ⟨Function.update_self _ _ _, by rw [Function.update_of_ne hac]; exact hend⟩
      | cons d l =>
          have hb' : (d :: l).getLast? = some b := by simpa using hb
          have hcb : c ≠ b := by
            rintro rfl
            exact (List.nodup_cons.mp h.nodup).1 (List.mem_of_getLast? hb')
          rw [Function.update_of_ne hcb]
          exact ih h.2 hb' hal

end Chain

end Lib
