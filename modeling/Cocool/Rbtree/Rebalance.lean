import Cocool.Rbtree.Links

/-!
# Rotating and rebalancing

A rotation rewrites at most six pointers and leaves the links of the rotated
tree.  The loop of `rb_rebalance` keeps one red node that may stand below
another red one, and moves it up until it does not.
-/

namespace Cocool.Rbtree

open Lib Lib.ColorTree Lib.Context

variable {ι : Type} [DecidableEq ι] {m m' : RbTree ι} {p q : Option ι} {x y z : ι}
  {s s' : Side} {c c' : Color} {t a b d : ColorTree ι} {f g : Frame ι} {ctx : List (Frame ι)}

/-- The memory after a rotation of `x` below `y`, where `q` changes sides. -/
def rotated (s : Side) (m : RbTree ι) (x y : ι) (q : Option ι) (ctx : List (Frame ι)) :
    RbTree ι :=
  (((((m.setChild s.other x q).reparent q x).setChild s y (some x)).setParent y
    (above ctx)).store (linkTo ctx) (some y)).setParent x (some y)

theorem rotate_eq (hx : (m.node x).child s.other = some y) (hy : (m.node y).child s = q)
    (hp : (m.node x).rbParent = above ctx) (hctx : ContextAt m (some x) ctx) (hq : q ≠ some x)
    (hxc : x ∉ ids ctx) (hyc : y ∉ ids ctx) : rotate s m x = .ok (rotated s m x y q ctx) := by
  simp only [rotate, rotated, hx, hy, RbTree.setChild_rbParent, RbTree.reparent_rbParent, hq,
    if_false, hp]
  cases ctx with
  | nil => rfl
  | cons f ctx =>
      have hf : f.value ∈ ids (f :: ctx) := by simp [ids]
      have hfx : f.value ≠ x := fun h ↦ hxc (h ▸ hf)
      have hfy : f.value ≠ y := fun h ↦ hyc (h ▸ hf)
      have hsib : x ∉ f.sibling.inorder := fun h ↦ hxc (by simp [ids, h])
      simp only [above_cons, RbTree.setParent_child, RbTree.setChild_child,
        RbTree.reparent_child, hfx, hfy, false_and, if_false, linkTo, RbTree.store,
        hctx.child_eq_iff hsib]
      by_cases hs : s = f.side
      · rw [if_pos hs, hs]
      · rw [if_neg hs, Side.eq_other hs, Side.other_other]

theorem rotated_node_ne (hx : z ≠ x) (hy : z ≠ y) (hq : q ≠ some z)
    (hk : ∀ s, linkTo ctx ≠ .child s z) : (rotated s m x y q ctx).node z = m.node z := by
  rw [rotated, RbTree.setParent_node_ne hx, RbTree.store_node_ne hk, RbTree.setParent_node_ne hy,
    RbTree.setChild_node_ne hy, RbTree.reparent_node_ne hq, RbTree.setChild_node_ne hx]

theorem rotated_context (hctx : ContextAt m p ctx) (hn : (ids ctx).Nodup) (hx : x ∉ ids ctx)
    (hy : y ∉ ids ctx) (hq : ∀ z ∈ ids ctx, q ≠ some z) :
    ContextAt (rotated s m x y q ctx) (some y) ctx := by
  have hmoved : ContextAt
      ((((m.setChild s.other x q).reparent q x).setChild s y (some x)).setParent y (above ctx))
      p ctx := by
    apply hctx.frame
    · simp
    intro z hz
    have hzx : z ≠ x := fun h ↦ hx (h ▸ hz)
    have hzy : z ≠ y := fun h ↦ hy (h ▸ hz)
    rw [RbTree.setParent_node_ne hzy, RbTree.setChild_node_ne hzy,
      RbTree.reparent_node_ne (hq z hz), RbTree.setChild_node_ne hzx]
  apply (hmoved.store hn).frame
  · rfl
  · exact fun z hz ↦ RbTree.setParent_node_ne fun h ↦ hx (h ▸ hz)

/-- The subtrees that keep their parent. -/
theorem rotated_outer (ht : TreeAt m p t) (hx : x ∉ t.inorder) (hy : y ∉ t.inorder)
    (hq : ∀ z ∈ t.inorder, q ≠ some z) (hctx : ∀ z ∈ t.inorder, z ∉ ids ctx) :
    TreeAt (rotated s m x y q ctx) p t := by
  apply ht.frame
  intro z hz
  apply rotated_node_ne
  · exact fun h ↦ hx (h ▸ hz)
  · exact fun h ↦ hy (h ▸ hz)
  · exact hq z hz
  · exact fun _ h ↦ hctx z hz (linkTo_mem h)

/-- The subtree that changes from `y` to `x`. -/
theorem rotated_inner (ht : TreeAt m (some y) t) (hn : t.inorder.Nodup) (hx : x ∉ t.inorder)
    (hy : y ∉ t.inorder) (hctx : ∀ z ∈ t.inorder, z ∉ ids ctx) :
    TreeAt (rotated s m x y t.top ctx) (some x) t := by
  have hzx : ∀ z ∈ t.inorder, z ≠ x := fun z hz h ↦ hx (h ▸ hz)
  have hzy : ∀ z ∈ t.inorder, z ≠ y := fun z hz h ↦ hy (h ▸ hz)
  have hchild : TreeAt (m.setChild s.other x t.top) (some y) t :=
    ht.frame fun z hz ↦ RbTree.setChild_node_ne (hzx z hz)
  apply (hchild.reparent hn x).frame
  intro z hz
  have hk : ∀ s, linkTo ctx ≠ .child s z := fun _ h ↦ hctx z hz (linkTo_mem h)
  rw [rotated, RbTree.setParent_node_ne (hzx z hz), RbTree.store_node_ne hk,
    RbTree.setParent_node_ne (hzy z hz), RbTree.setChild_node_ne (hzy z hz)]

theorem rotate_spec (hf : Focus m (join s c a x (join s c' b y d)) ctx) :
    ∃ m', rotate s m x = .ok m' ∧ Focus m' (join s c' (join s c a x b) y d) ctx := by
  obtain ⟨htree, hctx, hwhole⟩ := hf
  obtain ⟨hxp, hxc, hxa, hxy, ha, hyd⟩ := treeAt_join.1 htree
  obtain ⟨-, hyc, hyb, hydt, hb, hd⟩ := treeAt_join.1 hyd
  rw [top_join] at hxy hctx
  -- the nodes at hand, each of them once
  have hperm : ((join s c a x (join s c' b y d)).plug ctx).inorder.Perm
      (x :: (a.inorder ++ y :: (b.inorder ++ d.inorder)) ++ ids ctx) := by
    refine (plug_perm _ ctx).trans (.append_right _ ?_)
    exact (inorder_join_perm ..).trans (.cons x (.append_left _ (inorder_join_perm ..)))
  have hn := hperm.nodup_iff.1 hwhole
  simp only [List.cons_append, List.append_assoc, List.nodup_cons, List.nodup_append,
    List.mem_append, List.mem_cons, not_or] at hn
  obtain ⟨⟨hxna, hxney, hxnb, hxnd, hxnc⟩, hna, ⟨⟨hynb, hynd, hync⟩, hnb, ⟨hnd, hnc, hdc⟩, hbdc⟩,
    habdc⟩ := hn
  have hbx : b.top ≠ some x := fun h ↦ hxnb (top_mem h)
  have hby : b.top ≠ some y := fun h ↦ hynb (top_mem h)
  have hkx : ∀ s, linkTo ctx ≠ .child s x := fun _ h ↦ hxnc (linkTo_mem h)
  have hky : ∀ s, linkTo ctx ≠ .child s y := fun _ h ↦ hync (linkTo_mem h)
  refine ⟨_, rotate_eq hxy hyb hxp hctx hbx hxnc hync, ?_, ?_, ?_⟩
  · refine treeAt_join.2 ⟨?_, ?_, ?_, ?_, treeAt_join.2 ⟨?_, ?_, ?_, ?_, ?_, ?_⟩, ?_⟩
    · simp [rotated, Ne.symm hxney]
    · simp [rotated, hyc]
    · simp [rotated, hky]
    · simp [rotated, hky, Ne.symm hxney, hydt]
    · simp [rotated]
    · simp [rotated, hxc]
    · simp [rotated, hkx, hxney, hxa]
    · simp [rotated, hkx, hxney]
    · apply rotated_outer ha hxna
      · exact fun hy ↦ habdc y hy y (.inl rfl) rfl
      · exact fun z hz h ↦ habdc z hz z (.inr (.inl (top_mem h))) rfl
      · exact fun z hz h ↦ habdc z hz z (.inr (.inr (.inr h))) rfl
    · apply rotated_inner hb hnb hxnb hynb
      exact fun z hz h ↦ hbdc z hz z (.inr h) rfl
    · apply rotated_outer hd hxnd hynd
      · exact fun z hz h ↦ hbdc z (top_mem h) z (.inl hz) rfl
      · exact fun z hz h ↦ hdc z hz z h rfl
  · rw [top_join]
    apply rotated_context hctx hnc hxnc hync
    exact fun z hz h ↦ hbdc z (top_mem h) z (.inr hz) rfl
  · rwa [plug_inorder_congr ctx (inorder_rotate s c c' a b d x y).symm]

/-- A rotation to the right takes one to the left back. -/
theorem rbRotateRight_rbRotateLeft (hf : Focus m (.node c a x (.node c' b y d)) ctx) :
    ∃ m₁ m₂, rbRotateLeft m x = .ok m₁ ∧ rbRotateRight m₁ y = .ok m₂ ∧
      Focus m₂ (.node c a x (.node c' b y d)) ctx := by
  have hleft : Focus m (join .left c a x (join .left c' b y d)) ctx := hf
  obtain ⟨m₁, hm₁, hrot⟩ := rotate_spec hleft
  have hright : Focus m₁ (join .right c' d y (join .right c b x a)) ctx := hrot
  obtain ⟨m₂, hm₂, hback⟩ := rotate_spec hright
  exact ⟨m₁, m₂, hm₁, hm₂, hback⟩

/-- Where the loop stands: `node` is the root of `t`, and only its colour may
be wrong. -/
structure LoopAt (m : RbTree ι) (node : ι) (t : ColorTree ι) (ctx : List (Frame ι)) : Prop where
  focus : Focus m t ctx
  pending : Pending t ctx
  top : t.top = some node

variable {node u v w : ι} {cg : Color}

theorem turnInner_spec (h : LoopAt m node t (f :: g :: ctx)) (hf : f.color = .red) (s : Side) :
    ∃ m' node' v t' e, turnInner s m node f.value = .ok (m', node', v) ∧
      LoopAt m' node' t' (⟨s, .red, v, e⟩ :: g :: ctx) ∧
      (t'.plug (⟨s, .red, v, e⟩ :: g :: ctx)).inorder = (t.plug (f :: g :: ctx)).inorder := by
  obtain ⟨hfocus, hpending, htop⟩ := h
  obtain ⟨side, _, v, e⟩ := f
  obtain rfl : _ = Color.red := hf
  have htest : (m.node v).child s.other = some node ↔ s.other = side :=
    hfocus.child_eq_iff htop
  by_cases hs : s.other = side
  · subst hs
    obtain ⟨a, b, ht⟩ := exists_join s htop
    rw [hpending.1] at ht
    subst ht
    have hfocus' : Focus m (join s .red e v (join s .red a node b)) (g :: ctx) := by
      rw [← join_other]
      exact focus_cons.1 hfocus
    obtain ⟨m', hm', hrot⟩ := rotate_spec hfocus'
    refine ⟨m', v, node, join s .red e v a, b, ?_, ⟨focus_cons.2 hrot, ?_, top_join ..⟩, ?_⟩
    · rw [turnInner, if_pos (htest.2 rfl), hm']
      rfl
    · exact hpending.turnInner
    · apply plug_inorder_congr (g :: ctx)
      rw [attach, attach, join_other]
      exact (inorder_rotate ..).symm
  · obtain rfl : s = side := by simpa using congrArg Side.other (Side.eq_other hs)
    refine ⟨m, node, v, t, e, ?_, ⟨hfocus, hpending, htop⟩, rfl⟩
    rw [turnInner, if_neg (mt htest.1 hs)]

/-- The turn at `gparent`: the red parent comes up and takes its colour. -/
theorem turnOuter_spec
    (h : LoopAt m node t (⟨s, .red, v, a⟩ :: ⟨s, cg, w, b⟩ :: ctx)) (hb : b.color = .black) :
    ∃ m' ctx', rotate s.other ((m.setColor v .black).setColor w .red) w = .ok m' ∧
      LoopAt m' node t ctx' ∧ ctx'.length < ctx.length + 2 ∧
      (t.plug ctx').inorder = (t.plug (⟨s, .red, v, a⟩ :: ⟨s, cg, w, b⟩ :: ctx)).inorder := by
  obtain ⟨hfocus, hpending, htop⟩ := h
  have hparent : Focus (m.setColor v .black) (join s .black t v a) (⟨s, cg, w, b⟩ :: ctx) := by
    have hpaint := (focus_cons.1 hfocus).paint (top_join ..) .black
    rwa [attach, paint_join] at hpaint
  have hgparent : Focus ((m.setColor v .black).setColor w .red)
      (join s.other .red b w (join s.other .black a v t)) ctx := by
    have hpaint := (focus_cons.1 hparent).paint (top_join ..) .red
    rw [join_other, join_other]
    rwa [attach, paint_join] at hpaint
  obtain ⟨m', hm', hrot⟩ := rotate_spec hgparent
  rw [join_other, join_other] at hrot
  refine ⟨m', ⟨s, .black, v, join s .red a w b⟩ :: ctx, hm',
    ⟨focus_cons.2 hrot, hpending.turnOuter hb, htop⟩, Nat.lt_succ_self _, ?_⟩
  apply plug_inorder_congr ctx
  rw [attach, attach, attach]
  cases s <;> simp [join, inorder]

theorem recolor_spec (h : LoopAt m node t (⟨s', .red, v, a⟩ :: ⟨s, cg, w, b⟩ :: ctx))
    (hu : b.top = some u) (hb : b.color = .red) :
    ∃ t', LoopAt (((m.setColor u .black).setColor v .black).setColor w .red) w t' ctx ∧
      (t'.plug ctx).inorder = (t.plug (⟨s', .red, v, a⟩ :: ⟨s, cg, w, b⟩ :: ctx)).inorder := by
  obtain ⟨hfocus, hpending, -⟩ := h
  have huncle : Focus (m.setColor u .black) (join s' .red t v a)
      (⟨s, cg, w, b.paint .black⟩ :: ctx) := by
    have hpaint := (focus_sibling.1 (focus_cons.1 hfocus)).paint hu .black
    simpa [attach] using focus_sibling.1 hpaint
  have hparent : Focus ((m.setColor u .black).setColor v .black) (join s' .black t v a)
      (⟨s, cg, w, b.paint .black⟩ :: ctx) := by
    simpa using huncle.paint (top_join ..) .black
  have hgparent := (focus_cons.1 hparent).paint (top_join ..) .red
  rw [attach, paint_join] at hgparent
  refine ⟨_, ⟨hgparent, hpending.recolor rfl hb, top_join ..⟩, plug_inorder_congr ctx ?_⟩
  cases s <;> cases s' <;> simp [attach, join, inorder]

/-- The pass `e` ends with the loop further up in the same order of nodes. -/
def MovesUp (e : Except Fault (RbTree ι × ι)) (t : ColorTree ι) (ctx : List (Frame ι)) : Prop :=
  ∃ m node t' ctx', e = .ok (m, node) ∧ LoopAt m node t' ctx' ∧ ctx'.length < ctx.length ∧
    (t'.plug ctx').inorder = (t.plug ctx).inorder

theorem turn_spec (h : LoopAt m node t (f :: g :: ctx)) (hf : f.color = .red)
    (hb : g.sibling.color = .black) :
    MovesUp (rebalancePass.turn g.side m node f.value g.value) t (f :: g :: ctx) := by
  obtain ⟨m₁, node', v, t', e, hin, hloop, hord⟩ := turnInner_spec h hf g.side
  obtain ⟨m', ctx', hout, hloop', hlen, hord'⟩ := turnOuter_spec hloop hb
  refine ⟨m', node', t', ctx', ?_, hloop', hlen, hord'.trans hord⟩
  simp only [rebalancePass.turn, hin, bind, Except.bind, hout]
  rfl

theorem rebalancePass_spec (h : LoopAt m node t (f :: g :: ctx)) (hf : f.color = .red) :
    MovesUp (rebalancePass g.side m node f.value g.value) t (f :: g :: ctx) := by
  obtain ⟨-, -, -, -, -, -, -, huncle, -, hsib, -⟩ := h.focus.2.1
  cases hu : g.sibling.top with
  | none =>
      have hb : g.sibling.color = .black := by
        cases hnil : g.sibling with
        | nil => rfl
        | node c l x r => simp [hnil, Lib.ColorTree.top] at hu
      rw [rebalancePass, huncle, hu]
      exact turn_spec h hf hb
  | some u =>
      have hcolor := hsib.rbColor_top hu
      cases hb : g.sibling.color with
      | red =>
          obtain ⟨side, _, v, e⟩ := f
          obtain rfl : _ = Color.red := hf
          obtain ⟨t', hloop, hord⟩ := recolor_spec h hu hb
          refine ⟨_, g.value, t', ctx, ?_, hloop, ?_, hord⟩
          · simp only [rebalancePass, huncle, hu, hcolor, hb, if_true]
          · exact Nat.lt_succ_of_lt (Nat.lt_succ_self _)
      | black =>
          simp only [rebalancePass, huncle, hu, hcolor, hb, reduceCtorEq, if_false]
          exact turn_spec h hf hb

/-- The branch of the loop is the one for the side of `parent`. -/
theorem branch_side (h : Focus m t (f :: g :: ctx)) :
    (if (m.node g.value).rbLeft = some f.value then Side.left else .right) = g.side := by
  have hside : (m.node g.value).rbLeft = some f.value ↔ Side.left = g.side :=
    (focus_cons.1 h).child_eq_iff (s := .left) (top_join ..)
  cases hg : g.side <;> simp [hside, hg]

theorem rebalanceLoop_spec {fuel : ℕ} (hfuel : ctx.length < fuel) (h : LoopAt m node t ctx) :
    ∃ m' r, rebalanceLoop fuel m node = .ok m' ∧ Focus m' r [] ∧ r.Balanced ∧
      r.inorder = (t.plug ctx).inorder := by
  induction fuel generalizing m node t ctx with
  | zero => omega
  | succ fuel ih =>
      have hparent := h.focus.1.rbParent_top h.top
      have hstop (hblack : ∀ f ∈ ctx.head?, f.color = .black) :
          ∃ r, Focus m r [] ∧ r.Balanced ∧ r.inorder = (t.plug ctx).inorder :=
        ⟨t.plug ctx, focus_plug.1 h.focus, h.pending.balanced hblack, rfl⟩
      cases ctx with
      | nil =>
          obtain ⟨r, hr⟩ := hstop nofun
          refine ⟨m, r, ?_, hr⟩
          simp only [rebalanceLoop, hparent, above_nil]
      | cons f ctx =>
          obtain ⟨-, hcolor, -, hgparent, -, -⟩ := h.focus.2.1
          cases hf : f.color with
          | black =>
              obtain ⟨r, hr⟩ := hstop (by simp [hf])
              refine ⟨m, r, ?_, hr⟩
              simp only [rebalanceLoop, hparent, above_cons, hcolor, hf, reduceCtorEq, if_false]
          | red =>
              obtain ⟨g, ctx, rfl, -⟩ := h.pending.exists_black hf
              obtain ⟨m₁, node', t', ctx', hpass, hloop, hlen, hord⟩ := rebalancePass_spec h hf
              obtain ⟨m', r, hrun, hr, hbal, hord'⟩ :=
                ih (Nat.lt_of_lt_of_le hlen (Nat.le_of_lt_succ hfuel)) hloop
              refine ⟨m', r, ?_, hr, hbal, hord'.trans hord⟩
              simp only [rebalanceLoop, hparent, above_cons, hcolor, hf, if_true, hgparent,
                branch_side h.focus, hpass, bind, Except.bind]
              exact hrun

/-- A red leaf put into a balanced tree comes out balanced. -/
theorem rbRebalance_spec {fuel : ℕ} (hfuel : ctx.length < fuel)
    (hf : Focus m (.node c .nil x .nil) ctx) (hfits : Fits .nil ctx) :
    ∃ m' r, rbRebalance fuel m x = .ok m' ∧ Focus m' r [] ∧ r.Balanced ∧ r.color = .black ∧
      r.inorder = ((ColorTree.node c .nil x .nil).plug ctx).inorder := by
  have hred : Focus (m.setColor x .red) (.node .red .nil x .nil) ctx := hf.paint rfl .red
  obtain ⟨n, hn, -, -, harnd⟩ := hfits
  have hpending : Pending (.node .red .nil x .nil) ctx :=
    ⟨rfl, n, ⟨hn, hn⟩, ⟨fun _ ↦ ⟨rfl, rfl⟩, trivial, trivial⟩, harnd⟩
  obtain ⟨m', r, hrun, hr, hbal, hord⟩ := rebalanceLoop_spec hfuel ⟨hred, hpending, rfl⟩
  have hord' : r.inorder = ((ColorTree.node c .nil x .nil).plug ctx).inorder :=
    hord.trans (plug_inorder_congr ctx rfl)
  have hroot : m'.root = r.top := hr.2.1
  cases htop : r.top with
  | none =>
      cases r with
      | nil => simp [plug_inorder, inorder] at hord'
      | node c l y r => cases htop
  | some y =>
      refine ⟨m'.setColor y .black, r.paint .black, ?_, hr.paint htop .black, hbal.paint_black, ?_,
        by rw [inorder_paint, hord']⟩
      · simp only [rbRebalance, hrun, bind, Except.bind, hroot, htop]
        rfl
      · obtain ⟨a, b, hab⟩ := exists_join .left htop
        rw [hab, paint_join, color_join]

end Cocool.Rbtree
