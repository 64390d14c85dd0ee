import Cocool.Lib.Chain
import Mathlib.Data.List.Nodup
import Mathlib.Tactic.TypeStar

/-!
# Doubly linked lists in a heap

The cells are the elements of `α`, each with a link to the next one and one
back.  A segment is described by the cells on it, with what its first cell
links back to and what its last cell links on to.
-/

namespace Lib

variable {α : Type*}

/-- The cells of `l` are linked in this order, behind `p` and before `q`. -/
def Threaded (next prev : α → Option α) : Option α → List α → Option α → Prop
  | _, [], _ => True
  | p, x :: l, q =>
      prev x = p ∧ next x = l.head?.or q ∧ Threaded next prev (some x) l q

namespace Threaded

variable {next prev next' prev' : α → Option α} {p q : Option α} {l l₁ l₂ : List α} {x : α}

theorem append_iff :
    Threaded next prev p (l₁ ++ l₂) q ↔
      Threaded next prev p l₁ (l₂.head?.or q) ∧ Threaded next prev (l₁.getLast?.or p) l₂ q := by
  induction l₁ generalizing p with
  | nil => simp [Threaded]
  | cons x l₁ ih =>
      have hlast : (x :: l₁).getLast?.or p = l₁.getLast?.or (some x) := by
        cases hl : l₁.getLast? with
        | none =>
            obtain rfl : l₁ = [] := List.getLast?_eq_none_iff.1 hl
            rfl
        | some y => simp [List.getLast?_cons, hl]
      rw [List.cons_append, Threaded, Threaded, ih, hlast, List.head?_append, Option.or_assoc,
        and_assoc, and_assoc]

theorem frame (h : Threaded next prev p l q)
    (hsame : ∀ z ∈ l, next' z = next z ∧ prev' z = prev z) : Threaded next' prev' p l q := by
  induction l generalizing p with
  | nil => trivial
  | cons x l ih =>
      obtain ⟨hp, hn, hl⟩ := h
      obtain ⟨hnx, hpx⟩ := hsame x List.mem_cons_self
      exact ⟨hpx.trans hp, hnx.trans hn, ih hl fun z hz ↦ hsame z (List.mem_cons_of_mem x hz)⟩

theorem prev_eq (h : Threaded next prev p (l₁ ++ x :: l₂) q) : prev x = l₁.getLast?.or p :=
  (append_iff.1 h).2.1

theorem next_eq (h : Threaded next prev p (l₁ ++ x :: l₂) q) : next x = l₂.head?.or q :=
  (append_iff.1 h).2.2.1

/-- A list that ends is a chain from its first cell. -/
theorem chain (h : Threaded next prev p l none) : Chain next l.head? l := by
  induction l generalizing p with
  | nil => rfl
  | cons x l ih =>
      obtain ⟨-, hn, hl⟩ := h
      refine ⟨rfl, ?_⟩
      rw [hn, Option.or_none]
      exact ih hl

section

variable [DecidableEq α]

/-- What follows the segment is another cell: only the last one changes. -/
theorem relink_last {q' : Option α} (h : Threaded next prev p l q) (hn : l.Nodup)
    (hnext : ∀ z ∈ l, next' z = if l.getLast? = some z then q' else next z)
    (hprev : ∀ z ∈ l, prev' z = prev z) : Threaded next' prev' p l q' := by
  rcases l.eq_nil_or_concat' with rfl | ⟨l, x, rfl⟩
  · trivial
  have hlast : (l ++ [x]).getLast? = some x := List.getLast?_concat
  rw [hlast] at hnext
  rw [append_iff] at h ⊢
  obtain ⟨hl, hpx, -, -⟩ := h
  have hx : x ∈ l ++ [x] := by simp
  refine ⟨?_, (hprev x hx).trans hpx, ?_, trivial⟩
  · apply hl.frame
    intro z hz
    have hxz : x ≠ z := ((List.nodup_append.1 hn).2.2 z hz x (by simp)).symm
    have hzl : z ∈ l ++ [x] := List.mem_append_left _ hz
    exact ⟨(hnext z hzl).trans (if_neg fun hz ↦ hxz (Option.some.inj hz)), hprev z hzl⟩
  · exact (hnext x hx).trans (if_pos rfl)

/-- What precedes the segment is another cell: only the first one changes. -/
theorem relink_head {p' : Option α} (h : Threaded next prev p l q) (hn : l.Nodup)
    (hnext : ∀ z ∈ l, next' z = next z)
    (hprev : ∀ z ∈ l, prev' z = if l.head? = some z then p' else prev z) :
    Threaded next' prev' p' l q := by
  cases l with
  | nil => trivial
  | cons x l =>
      obtain ⟨-, hnx, hl⟩ := h
      refine ⟨(hprev x List.mem_cons_self).trans (if_pos rfl),
        (hnext x List.mem_cons_self).trans hnx, ?_⟩
      apply hl.frame
      intro z hz
      have hzl : z ∈ x :: l := List.mem_cons_of_mem x hz
      have hxz : x ≠ z := fun hxz ↦ (List.nodup_cons.1 hn).1 (hxz ▸ hz)
      exact ⟨hnext z hzl, (hprev z hzl).trans (if_neg fun hz ↦ hxz (Option.some.inj hz))⟩

/-- A cell that is linked in between two parts of the list. -/
theorem insert (h : Threaded next prev p (l₁ ++ l₂) q) (hn : (l₁ ++ x :: l₂).Nodup)
    (hnx : next' x = l₂.head?.or q) (hpx : prev' x = l₁.getLast?.or p)
    (hnext : ∀ z, z ≠ x → next' z = if l₁.getLast? = some z then some x else next z)
    (hprev : ∀ z, z ≠ x → prev' z = if l₂.head? = some z then some x else prev z) :
    Threaded next' prev' p (l₁ ++ x :: l₂) q := by
  obtain ⟨h₁, h₂⟩ := append_iff.1 h
  obtain ⟨hn₁, hnx₂, hdisj⟩ := List.nodup_append.1 hn
  obtain ⟨hx₂, hn₂⟩ := List.nodup_cons.1 hnx₂
  have hx₁ : ∀ z ∈ l₁, z ≠ x := fun z hz ↦ hdisj z hz x List.mem_cons_self
  have hx₂' : ∀ z ∈ l₂, z ≠ x := fun z hz hzx ↦ hx₂ (hzx ▸ hz)
  refine append_iff.2 ⟨?_, hpx, hnx, ?_⟩
  · apply h₁.relink_last hn₁ fun z hz ↦ hnext z (hx₁ z hz)
    intro z hz
    refine (hprev z (hx₁ z hz)).trans (if_neg fun hhead ↦ ?_)
    exact hdisj z hz z (List.mem_cons_of_mem x (List.mem_of_mem_head? hhead)) rfl
  · apply h₂.relink_head hn₂ _ fun z hz ↦ hprev z (hx₂' z hz)
    intro z hz
    refine (hnext z (hx₂' z hz)).trans (if_neg fun hlast ↦ ?_)
    exact hdisj z (List.mem_of_getLast? hlast) z (List.mem_cons_of_mem x hz) rfl

/-- A cell that is taken out of the list. -/
theorem remove (h : Threaded next prev p (l₁ ++ x :: l₂) q) (hn : (l₁ ++ x :: l₂).Nodup)
    (hnext : ∀ z, z ≠ x → next' z = if l₁.getLast? = some z then l₂.head?.or q else next z)
    (hprev : ∀ z, z ≠ x → prev' z = if l₂.head? = some z then l₁.getLast?.or p else prev z) :
    Threaded next' prev' p (l₁ ++ l₂) q := by
  obtain ⟨h₁, -, -, h₂⟩ := append_iff.1 h
  obtain ⟨hn₁, hnx₂, hdisj⟩ := List.nodup_append.1 hn
  obtain ⟨hx₂, hn₂⟩ := List.nodup_cons.1 hnx₂
  have hx₁ : ∀ z ∈ l₁, z ≠ x := fun z hz ↦ hdisj z hz x List.mem_cons_self
  have hx₂' : ∀ z ∈ l₂, z ≠ x := fun z hz hzx ↦ hx₂ (hzx ▸ hz)
  refine append_iff.2 ⟨?_, ?_⟩
  · apply h₁.relink_last hn₁ fun z hz ↦ hnext z (hx₁ z hz)
    intro z hz
    refine (hprev z (hx₁ z hz)).trans (if_neg fun hhead ↦ ?_)
    exact hdisj z hz z (List.mem_cons_of_mem x (List.mem_of_mem_head? hhead)) rfl
  · apply h₂.relink_head hn₂ _ fun z hz ↦ hprev z (hx₂' z hz)
    intro z hz
    refine (hnext z (hx₂' z hz)).trans (if_neg fun hlast ↦ ?_)
    exact hdisj z (List.mem_of_getLast? hlast) z (List.mem_cons_of_mem x hz) rfl

end

end Threaded

end Lib
