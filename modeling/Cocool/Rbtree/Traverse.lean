import Cocool.Rbtree.Links

/-!
# Walking the tree

`rb_next` finds the node after the current one through the parent pointers.
In terms of the place of a node it is the first of what comes after it, so
the loop over `rb_first` and `rb_next` reads off the nodes in order.
-/

namespace Cocool.Rbtree

open Lib Lib.ColorTree Lib.Context

variable {ι : Type} [DecidableEq ι]

/-- `for (p = q; p != NULL; p = rb_next(&t))`. -/
def visit (fuel : ℕ) (m : RbTree ι) : ℕ → Option ι → RbTraverse ι → Except Fault (List ι)
  | 0, _, _ => .error .fuel
  | _ + 1, none, _ => .ok []
  | n + 1, some p, t => do
      let (q, t) ← rbNext fuel m t
      let rest ← visit fuel m n q t
      return p :: rest

/-- The nodes the loop over `rb_first` and `rb_next` comes to. -/
def traverse (fuel : ℕ) (m : RbTree ι) (t : RbTraverse ι) : Except Fault (List ι) := do
  let (p, t) ← rbFirst fuel m m.root t
  visit fuel m fuel p t

variable {m : RbTree ι} {p : Option ι} {x : ι} {c : Color} {t l r : ColorTree ι}
  {ctx : List (Frame ι)} {fuel : ℕ}

omit [DecidableEq ι] in
theorem length_le_ids (ctx : List (Frame ι)) : ctx.length ≤ (ids ctx).length := by
  induction ctx with
  | nil => exact Nat.le_refl 0
  | cons f ctx ih =>
      have hids : ids (f :: ctx) = f.value :: f.sibling.inorder ++ ids ctx := rfl
      rw [hids, List.length_append, List.length_cons, List.length_cons]
      omega

omit [DecidableEq ι] in
theorem descendLeft_spec (h : TreeAt m p t) (ht : t.top = some x)
    (hfuel : t.inorder.length ≤ fuel) :
    ∃ y, descendLeft m fuel x = .ok y ∧ t.inorder.head? = some y := by
  induction t generalizing p x fuel with
  | nil => cases ht
  | node c l z r ihl _ =>
      obtain rfl : z = x := Option.some.inj ht
      obtain ⟨-, -, hleft, -, hl, -⟩ := h
      simp only [inorder, List.length_append, List.length_cons] at hfuel
      obtain ⟨fuel, rfl⟩ : ∃ k, fuel = k + 1 := ⟨fuel - 1, by omega⟩
      cases htop : l.top with
      | none =>
          refine ⟨z, ?_, ?_⟩
          · rw [descendLeft, show (m.node z).rbLeft = none from hleft.trans htop]
          · cases l with
            | nil => rfl
            | node => cases htop
      | some y =>
          have hlen : l.inorder.length ≤ fuel := by omega
          obtain ⟨w, hw, hhead⟩ := ihl hl htop hlen
          refine ⟨w, ?_, ?_⟩
          · rw [descendLeft, show (m.node z).rbLeft = some y from hleft.trans htop]
            exact hw
          · rw [inorder, List.head?_append, hhead]
            rfl

/-- Climbing stops at the first node that comes after the place. -/
theorem climb_spec (h : Focus m t ctx) (ht : t.top = some x) (hfuel : ctx.length < fuel) :
    climb m fuel x = .ok (after ctx).head? := by
  induction ctx generalizing t x fuel with
  | nil =>
      obtain ⟨fuel, rfl⟩ : ∃ k, fuel = k + 1 := ⟨fuel - 1, by omega⟩
      simp only [climb, h.1.rbParent_top ht, above_nil, after, List.head?_nil]
  | cons f ctx ih =>
      obtain ⟨fuel, rfl⟩ : ∃ k, fuel = k + 1 := ⟨fuel - 1, by omega⟩
      have htest : (m.node f.value).rbLeft = some x ↔ Side.left = f.side :=
        h.child_eq_iff (s := .left) ht
      have hup := ih (focus_cons.1 h) (top_join ..) (Nat.lt_of_succ_lt_succ hfuel)
      simp only [climb, h.1.rbParent_top ht, above_cons, htest, hup, after]
      cases f.side with
      | left => rfl
      | right => rfl

theorem rbNext_spec (h : Focus m (.node c l x r) ctx)
    (hfuel : ((ColorTree.node c l x r).plug ctx).inorder.length < fuel) :
    rbNext fuel m ⟨some x⟩ =
      .ok ((r.inorder ++ after ctx).head?, ⟨(r.inorder ++ after ctx).head?⟩) := by
  have hids := length_le_ids ctx
  rw [(plug_perm _ ctx).length_eq] at hfuel
  simp only [inorder, List.length_append, List.length_cons] at hfuel
  obtain ⟨-, -, -, hright, -, hr⟩ := h.1
  cases htop : r.top with
  | none =>
      have hnil : r.inorder = [] := by
        cases r with
        | nil => rfl
        | node => cases htop
      have hclimb := climb_spec h rfl (show ctx.length < fuel by omega)
      simp only [rbNext, show (m.node x).rbRight = none from hright.trans htop, hclimb, hnil,
        List.nil_append]
      rfl
  | some y =>
      have hlen : r.inorder.length ≤ fuel := by omega
      obtain ⟨z, hz, hhead⟩ := descendLeft_spec hr htop hlen
      simp only [rbNext, show (m.node x).rbRight = some y from hright.trans htop, hz,
        List.head?_append, hhead]
      rfl

/-- The walk over the rest of the nodes, after those in `past`. -/
theorem visit_spec {past rest : List ι} {n : ℕ} (h : Focus m t [])
    (hsplit : t.inorder = past ++ rest) (hfuel : t.inorder.length < fuel) (hn : rest.length < n) :
    visit fuel m n rest.head? ⟨rest.head?⟩ = .ok rest := by
  induction rest generalizing past n with
  | nil =>
      obtain ⟨n, rfl⟩ : ∃ k, n = k + 1 := ⟨n - 1, by omega⟩
      rfl
  | cons x rest ih =>
      obtain ⟨n, rfl⟩ : ∃ k, n = k + 1 := ⟨n - 1, by omega⟩
      have hnodup : (past ++ x :: rest).Nodup := hsplit ▸ h.2.2
      obtain ⟨c, l, r, ctx, hplug⟩ := exists_plug [] (show x ∈ t.inorder by simp [hsplit])
      have hx : Focus m (.node c l x r) ctx := focus_plug.2 (hplug ▸ h)
      -- `x` stands once in the order, so both splits of it are one
      have horder : past ++ x :: rest =
          (before ctx ++ l.inorder) ++ x :: (r.inorder ++ after ctx) := by
        have hpi := plug_inorder (.node c l x r) ctx
        rw [hplug, plug, hsplit] at hpi
        simpa [inorder] using hpi
      have hrest : rest = r.inorder ++ after ctx := by
        have hnot := (List.nodup_cons.1 (List.nodup_middle.1 hnodup)).1
        rw [List.mem_append, not_or] at hnot
        exact ((List.append_cons_inj_of_notMem hnot.1 hnot.2).1 horder).2.2
      have hnext := rbNext_spec hx (by rwa [hplug])
      rw [← hrest] at hnext
      have hvisit := ih (show t.inorder = (past ++ [x]) ++ rest by simpa using hsplit)
        (Nat.lt_of_succ_lt_succ hn)
      simp only [visit, List.head?_cons, hnext, hvisit, bind, Except.bind]
      rfl

/-- The loop ends and comes to every node once, in order. -/
theorem traverse_spec (h : Focus m t []) (hfuel : t.inorder.length < fuel) (k : RbTraverse ι) :
    traverse fuel m k = .ok t.inorder := by
  have hroot : m.root = t.top := h.2.1
  cases htop : t.top with
  | none =>
      obtain ⟨fuel, rfl⟩ : ∃ k, fuel = k + 1 := ⟨fuel - 1, by omega⟩
      cases t with
      | nil =>
          simp only [traverse, hroot, htop, rbFirst, bind, Except.bind, visit, inorder]
      | node => cases htop
  | some x =>
      obtain ⟨y, hy, hhead⟩ := descendLeft_spec h.1 htop (Nat.le_of_lt hfuel)
      have hvisit := visit_spec h (List.nil_append _).symm hfuel hfuel
      rw [hhead] at hvisit
      simp only [traverse, hroot, htop, rbFirst, hy, Except.map, bind, Except.bind]
      exact hvisit

end Cocool.Rbtree
