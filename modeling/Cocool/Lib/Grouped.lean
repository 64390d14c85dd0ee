import Mathlib.Data.List.Basic
import Mathlib.Tactic.TypeStar

/-!
# Lists in groups

A list is grouped by `f` when elements with the same value stand next to
each other.  Each group is then a block of the list.
-/

namespace Lib

variable {α κ : Type*} {f : α → κ}

/-- An element that comes before another one of its group stands next to one
of its group. -/
def Grouped (f : α → κ) : List α → Prop
  | [] => True
  | x :: l => ((∃ y ∈ l, f y = f x) → ∀ y ∈ l.head?, f y = f x) ∧ Grouped f l

namespace Grouped

variable {x y : α} {k : κ} {l l₁ l₂ : List α}

theorem of_append (h : Grouped f (l₁ ++ l₂)) : Grouped f l₂ := by
  induction l₁ with
  | nil => exact h
  | cons x l₁ ih => exact ih h.2

theorem congr {g : α → κ} (h : Grouped f l) (hfg : ∀ x ∈ l, g x = f x) : Grouped g l := by
  induction l with
  | nil => trivial
  | cons x l ih =>
      have hl : ∀ y ∈ l, g y = f y := fun y hy ↦ hfg y (List.mem_cons_of_mem x hy)
      refine ⟨?_, ih h.2 hl⟩
      rw [hfg x List.mem_cons_self]
      rintro ⟨y, hy, hyx⟩ z hz
      rw [hl z (List.mem_of_mem_head? hz)]
      exact h.1 ⟨y, hy, (hl y hy).symm.trans hyx⟩ z hz

/-- A new group may start in front. -/
theorem cons_new (h : Grouped f l) (hx : ∀ y ∈ l, f y ≠ f x) : Grouped f (x :: l) :=
  ⟨fun ⟨y, hy, hyx⟩ ↦ absurd hyx (hx y hy), h⟩

/-- A group may grow in front of any of its elements. -/
theorem insert (h : Grouped f (l₁ ++ y :: l₂)) (hxy : f x = f y) :
    Grouped f (l₁ ++ x :: y :: l₂) := by
  induction l₁ with
  | nil =>
      refine ⟨fun _ z hz ↦ ?_, h⟩
      obtain rfl : y = z := Option.some.inj hz
      exact hxy.symm
  | cons a l₁ ih =>
      refine ⟨fun ⟨z, hz, hza⟩ ↦ ?_, ih h.2⟩
      -- an element of the group of `a` was there before
      have hold : ∃ w ∈ l₁ ++ y :: l₂, f w = f a := by
        have hz : z ∈ l₁ ++ x :: y :: l₂ := hz
        simp only [List.mem_append, List.mem_cons] at hz ⊢
        rcases hz with hz | rfl | hz
        · exact ⟨z, .inl hz, hza⟩
        · exact ⟨y, .inr (.inl rfl), hxy.symm.trans hza⟩
        · exact ⟨z, .inr hz, hza⟩
      have hhead := h.1 hold
      cases l₁ with
      | cons b l₁ => exact hhead
      | nil =>
          intro w hw
          obtain rfl : x = w := Option.some.inj hw
          exact hxy.trans (hhead y rfl)

/-- Any element may go. -/
theorem remove (h : Grouped f (l₁ ++ x :: l₂)) : Grouped f (l₁ ++ l₂) := by
  induction l₁ with
  | nil => exact h.2
  | cons a l₁ ih =>
      refine ⟨fun ⟨z, hz, hza⟩ ↦ ?_, ih h.2⟩
      have hold : ∃ w ∈ l₁ ++ x :: l₂, f w = f a := by
        have hz : z ∈ l₁ ++ l₂ := hz
        refine ⟨z, ?_, hza⟩
        simp only [List.mem_append, List.mem_cons] at hz ⊢
        exact hz.imp id .inr
      have hhead := h.1 hold
      cases l₁ with
      | cons b l₁ => exact hhead
      | nil =>
          intro w hw
          have hxa : f x = f a := hhead x rfl
          rw [← hxa]
          exact h.2.1 ⟨z, hz, hza.trans hxa.symm⟩ w hw

variable [DecidableEq κ]

/-- The elements with the value `k` are a block of the list. -/
theorem exists_block (h : Grouped f l) (k : κ) :
    ∃ l₁ l₂, l = l₁ ++ l.filter (f · = k) ++ l₂ ∧ ∀ y ∈ l₁, f y ≠ k := by
  induction l with
  | nil => exact ⟨[], [], rfl, nofun⟩
  | cons x l ih =>
      obtain ⟨l₁, l₂, hl, hl₁⟩ := ih h.2
      by_cases hx : f x = k
      · rw [List.filter_cons_of_pos (by simpa using hx)]
        by_cases hk : ∃ y ∈ l, f y = k
        · -- the block starts right behind `x`
          have hhead := h.1 (hx ▸ hk)
          cases l₁ with
          | nil =>
              refine ⟨[], l₂, ?_, nofun⟩
              rw [List.nil_append, List.cons_append, ← List.nil_append (l.filter _)]
              exact congrArg (x :: ·) hl
          | cons a l₁ =>
              have ha : f a = k := (hhead a (by rw [hl]; rfl)).trans hx
              exact absurd ha (hl₁ a List.mem_cons_self)
        · have hnil : l.filter (f · = k) = [] := by
            rw [List.filter_eq_nil_iff]
            exact fun y hy hyk ↦ hk ⟨y, hy, by simpa using hyk⟩
          exact ⟨[], l, by rw [hnil]; rfl, nofun⟩
      · rw [List.filter_cons_of_neg (by simpa using hx)]
        refine ⟨x :: l₁, l₂, ?_, List.forall_mem_cons.2 ⟨hx, hl₁⟩⟩
        rw [List.cons_append, List.cons_append]
        exact congrArg (x :: ·) hl

end Grouped

end Lib
