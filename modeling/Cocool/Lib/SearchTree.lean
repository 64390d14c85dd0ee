import Cocool.Lib.RedBlackErase
import Mathlib.Data.Nat.Log
import Mathlib.Algebra.GroupWithZero.Nat
import Mathlib.Order.Lattice

/-!
# Searching in a tree

The place a search comes to, as a subtree and its context, and how far a
search can go in a balanced tree.
-/

namespace Lib

namespace ColorTree

variable {α : Type*} {t : ColorTree α} {h : ℕ}

/-- The number of nodes on a longest path. -/
def depth : ColorTree α → ℕ
  | nil => 0
  | node _ l _ r => max l.depth r.depth + 1

theorem HasHeight.le_length (ht : t.HasHeight h) : 2 ^ h ≤ t.inorder.length + 1 := by
  induction t generalizing h with
  | nil =>
      obtain rfl : h = 0 := ht
      exact Nat.le_refl 1
  | node c l x r ihl ihr =>
      simp only [inorder, List.length_append, List.length_cons]
      cases c with
      | red =>
          have hl := ihl ht.1
          omega
      | black =>
          cases h with
          | zero => exact ht.elim
          | succ k =>
              have hl := ihl ht.1
              have hr := ihr ht.2
              rw [Nat.pow_succ]
              omega

/-- Between two black nodes of a path stands at most one red node. -/
theorem HasHeight.depth_le (ht : t.HasHeight h) (hred : t.NoRedRed) :
    t.depth ≤ 2 * h + 1 ∧ (t.color = .black → t.depth ≤ 2 * h) := by
  induction t generalizing h with
  | nil => exact ⟨Nat.zero_le _, fun _ ↦ Nat.zero_le _⟩
  | node c l x r ihl ihr =>
      obtain ⟨hkids, hredl, hredr⟩ := hred
      cases c with
      | red =>
          obtain ⟨hlc, hrc⟩ := hkids rfl
          have hl := (ihl ht.1 hredl).2 hlc
          have hr := (ihr ht.2 hredr).2 hrc
          refine ⟨?_, nofun⟩
          rw [depth]
          omega
      | black =>
          cases h with
          | zero => exact ht.elim
          | succ k =>
              have hl := (ihl ht.1 hredl).1
              have hr := (ihr ht.2 hredr).1
              rw [depth]
              omega

theorem Balanced.depth_le_log (hbal : t.Balanced) (hblack : t.color = .black) :
    t.depth ≤ 2 * Nat.log 2 (t.inorder.length + 1) := by
  obtain ⟨hred, h, ht⟩ := hbal
  have hlog : h ≤ Nat.log 2 (t.inorder.length + 1) :=
    Nat.le_log_of_pow_le Nat.one_lt_two ht.le_length
  have hdepth := (ht.depth_le hred).2 hblack
  omega

/-- A subtree with the path to it. -/
theorem depth_le_plug (t : ColorTree α) (ctx : List (Frame α)) :
    t.depth + ctx.length ≤ (t.plug ctx).depth := by
  induction ctx generalizing t with
  | nil => exact Nat.le_refl _
  | cons f ctx ih =>
      have hattach : t.depth + 1 ≤ (attach f t).depth := by
        obtain ⟨s, c, x, b⟩ := f
        cases s with
        | left => exact Nat.succ_le_succ (Nat.le_max_left ..)
        | right => exact Nat.succ_le_succ (Nat.le_max_right ..)
      have hup := ih (attach f t)
      rw [plug, List.length_cons]
      omega

section

variable {κ : Type*} [LinearOrder κ] (key : α → κ) (k : κ)

/-- Where the search for `k` ends: at a node with this key, or at the empty
subtree where it would be. -/
def seek : ColorTree α → List (Frame α) → ColorTree α × List (Frame α)
  | nil, ctx => (nil, ctx)
  | node c l x r, ctx =>
      if k < key x then seek l (⟨.left, c, x, r⟩ :: ctx)
      else if key x < k then seek r (⟨.right, c, x, l⟩ :: ctx)
      else (node c l x r, ctx)

theorem plug_seek (t : ColorTree α) (ctx : List (Frame α)) :
    (seek key k t ctx).1.plug (seek key k t ctx).2 = t.plug ctx := by
  induction t generalizing ctx with
  | nil => rfl
  | node c l x r ihl ihr =>
      rw [seek]
      split
      · exact ihl _
      split
      · exact ihr _
      · rfl

theorem seek_top (t : ColorTree α) (ctx : List (Frame α)) :
    ∀ x ∈ (seek key k t ctx).1.top, key x = k := by
  induction t generalizing ctx with
  | nil => nofun
  | node c l x r ihl ihr =>
      rw [seek]
      split
      · exact ihl _
      split
      · exact ihr _
      next hlt hgt =>
        rintro _ ⟨⟩
        exact le_antisymm (not_lt.1 hlt) (not_lt.1 hgt)

variable {key k}

/-- What stands before the place of an unsuccessful search is smaller, and
what stands after it is larger. -/
theorem seek_between {ctx : List (Frame α)}
    (hsorted : (t.inorder.map key).Pairwise (· < ·)) (hbefore : ∀ x ∈ Context.before ctx, key x < k)
    (hafter : ∀ x ∈ Context.after ctx, k < key x) (hnil : (seek key k t ctx).1 = nil) :
    (∀ x ∈ Context.before (seek key k t ctx).2, key x < k) ∧
      ∀ x ∈ Context.after (seek key k t ctx).2, k < key x := by
  induction t generalizing ctx with
  | nil => exact ⟨hbefore, hafter⟩
  | node c l x r ihl ihr =>
      simp only [inorder, List.map_append, List.map_cons, List.pairwise_append,
        List.pairwise_cons, List.forall_mem_map, List.mem_cons] at hsorted
      obtain ⟨hl, ⟨hxr, hr⟩, hlx⟩ := hsorted
      rw [seek] at hnil ⊢
      split at hnil
      next hlt =>
        rw [if_pos hlt]
        refine ihl hl hbefore (fun z hz ↦ ?_) hnil
        simp only [Context.after, List.cons_append, List.mem_cons, List.mem_append] at hz
        rcases hz with rfl | hz | hz
        · exact hlt
        · exact hlt.trans (hxr z hz)
        · exact hafter z hz
      next hlt =>
        rw [if_neg hlt]
        split at hnil
        next hgt =>
          rw [if_pos hgt]
          refine ihr hr (fun z hz ↦ ?_) hafter hnil
          simp only [Context.before, List.mem_append, List.mem_singleton] at hz
          rcases hz with (hz | hz) | rfl
          · exact hbefore z hz
          · exact (hlx z hz _ (.inl rfl)).trans hgt
          · exact hgt
        next => cases hnil

end

end ColorTree

end Lib
