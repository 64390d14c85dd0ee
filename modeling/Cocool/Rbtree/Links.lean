import Cocool.Rbtree.Node
import Mathlib.Data.List.Nodup
import Mathlib.Tactic.Tauto

/-!
# Trees behind links

When the links of the nodes are those of a tree.  A place in the tree is
described with the context around it, so that a store is seen once by the
subtree it concerns and leaves the rest alone.
-/

namespace Cocool.Rbtree

open Lib Lib.ColorTree Lib.Context

variable {ι : Type} [DecidableEq ι] {m m' : RbTree ι} {p q u : Option ι} {x y z : ι}
  {s s' : Side} {c : Color} {t a b : ColorTree ι} {f : Frame ι} {ctx : List (Frame ι)} {k : Link ι}

omit [DecidableEq ι] in
@[simp] theorem RbNode.setChild_rbParent (n : RbNode ι) :
    (n.setChild s q).rbParent = n.rbParent := by cases s <;> rfl

omit [DecidableEq ι] in
@[simp] theorem RbNode.setChild_rbColor (n : RbNode ι) :
    (n.setChild s q).rbColor = n.rbColor := by cases s <;> rfl

omit [DecidableEq ι] in
@[simp] theorem RbNode.setChild_child (n : RbNode ι) :
    (n.setChild s q).child s' = if s' = s then q else n.child s' := by
  cases s <;> cases s' <;> rfl

namespace RbTree

@[simp] theorem setParent_rbParent :
    ((m.setParent x q).node z).rbParent = if z = x then q else (m.node z).rbParent := by
  by_cases h : z = x <;> simp [setParent, h]

@[simp] theorem setParent_child :
    ((m.setParent x q).node z).child s = (m.node z).child s := by
  by_cases h : z = x
  · subst h
    cases s <;> simp [setParent, RbNode.child]
  · simp [setParent, h]

@[simp] theorem setParent_rbColor :
    ((m.setParent x q).node z).rbColor = (m.node z).rbColor := by
  by_cases h : z = x <;> simp [setParent, h]

@[simp] theorem setChild_rbParent :
    ((m.setChild s x q).node z).rbParent = (m.node z).rbParent := by
  by_cases h : z = x <;> simp [setChild, h]

@[simp] theorem setChild_child :
    ((m.setChild s x q).node z).child s' =
      if z = x ∧ s' = s then q else (m.node z).child s' := by
  by_cases h : z = x <;> simp [setChild, h]

@[simp] theorem setChild_rbColor :
    ((m.setChild s x q).node z).rbColor = (m.node z).rbColor := by
  by_cases h : z = x <;> simp [setChild, h]

@[simp] theorem setColor_rbParent :
    ((m.setColor x c).node z).rbParent = (m.node z).rbParent := by
  by_cases h : z = x <;> simp [setColor, h]

@[simp] theorem setColor_child :
    ((m.setColor x c).node z).child s = (m.node z).child s := by
  by_cases h : z = x
  · subst h
    cases s <;> simp [setColor, RbNode.child]
  · simp [setColor, h]

@[simp] theorem setColor_rbColor :
    ((m.setColor x c).node z).rbColor = if z = x then c else (m.node z).rbColor := by
  by_cases h : z = x <;> simp [setColor, h]

@[simp] theorem setParent_root : (m.setParent x q).root = m.root := rfl

@[simp] theorem setChild_root : (m.setChild s x q).root = m.root := rfl

theorem setParent_node_ne (h : z ≠ x) : (m.setParent x q).node z = m.node z :=
  Function.update_of_ne h ..

theorem setChild_node_ne (h : z ≠ x) : (m.setChild s x q).node z = m.node z :=
  Function.update_of_ne h ..

theorem setColor_node_ne (h : z ≠ x) : (m.setColor x c).node z = m.node z :=
  Function.update_of_ne h ..

@[simp] theorem reparent_rbParent :
    ((m.reparent q x).node z).rbParent = if q = some z then some x else (m.node z).rbParent := by
  cases q <;> simp [reparent, eq_comm]

@[simp] theorem reparent_child : ((m.reparent q x).node z).child s = (m.node z).child s := by
  cases q <;> simp [reparent]

@[simp] theorem reparent_rbColor : ((m.reparent q x).node z).rbColor = (m.node z).rbColor := by
  cases q <;> simp [reparent]

@[simp] theorem reparent_root : (m.reparent q x).root = m.root := by
  cases q <;> rfl

theorem reparent_node_ne (h : q ≠ some z) : (m.reparent q x).node z = m.node z := by
  cases q with
  | none => rfl
  | some y => exact setParent_node_ne fun hz ↦ h (hz ▸ rfl)

@[simp] theorem store_rbParent : ((m.store k q).node z).rbParent = (m.node z).rbParent := by
  cases k <;> simp [store]

@[simp] theorem store_child :
    ((m.store k q).node z).child s = if k = .child s z then q else (m.node z).child s := by
  cases k with
  | root => simp [store]
  | child s' x => simp [store, and_comm, eq_comm]

@[simp] theorem store_rbColor : ((m.store k q).node z).rbColor = (m.node z).rbColor := by
  cases k <;> simp [store]

theorem store_node_ne (h : ∀ s, k ≠ .child s z) : (m.store k q).node z = m.node z := by
  cases k with
  | root => rfl
  | child s x => exact setChild_node_ne fun hz ↦ h s (hz ▸ rfl)

end RbTree

/-- The nodes of `t` have the links and colours of `t`, with `p` above. -/
def TreeAt (m : RbTree ι) : Option ι → ColorTree ι → Prop
  | _, .nil => True
  | p, .node c l x r =>
      (m.node x).rbParent = p ∧ (m.node x).rbColor = c ∧ (m.node x).child .left = l.top ∧
        (m.node x).child .right = r.top ∧ TreeAt m (some x) l ∧ TreeAt m (some x) r

/-- The pointer that leads to the place with this context. -/
def linkTo : List (Frame ι) → Link ι
  | [] => .root
  | f :: _ => .child f.side f.value

/-- The same for a context, where `h` is the node it leads to. -/
def ContextAt (m : RbTree ι) : Option ι → List (Frame ι) → Prop
  | h, [] => m.root = h
  | h, f :: ctx =>
      (m.node f.value).child f.side = h ∧ (m.node f.value).rbColor = f.color ∧
        (m.node f.value).child f.side.other = f.sibling.top ∧
        (m.node f.value).rbParent = above ctx ∧ TreeAt m (some f.value) f.sibling ∧
        ContextAt m (some f.value) ctx

/-- The links are those of the tree `t.plug ctx`, looked at from `t`, and no
node stands in it twice. -/
def Focus (m : RbTree ι) (t : ColorTree ι) (ctx : List (Frame ι)) : Prop :=
  TreeAt m (above ctx) t ∧ ContextAt m t.top ctx ∧ (t.plug ctx).inorder.Nodup

section

omit [DecidableEq ι]

theorem treeAt_join :
    TreeAt m p (join s c a x b) ↔
      (m.node x).rbParent = p ∧ (m.node x).rbColor = c ∧ (m.node x).child s = a.top ∧
        (m.node x).child s.other = b.top ∧ TreeAt m (some x) a ∧ TreeAt m (some x) b := by
  cases s
  · exact .rfl
  · simp only [join, TreeAt, Side.other]
    tauto

theorem focus_cons : Focus m t (f :: ctx) ↔ Focus m (attach f t) ctx := by
  simp only [Focus, plug, attach, treeAt_join, ContextAt, above_cons, top_join]
  tauto

theorem focus_plug : Focus m t ctx ↔ Focus m (t.plug ctx) [] := by
  induction ctx generalizing t with
  | nil => rfl
  | cons f ctx ih => exact focus_cons.trans ih

/-- The same place seen from the other child of the node above. -/
theorem focus_sibling :
    Focus m t (f :: ctx) ↔ Focus m f.sibling (⟨f.side.other, f.color, f.value, t⟩ :: ctx) := by
  rw [focus_cons, focus_cons, attach, attach, join_other]

theorem ContextAt.load (h : ContextAt m q ctx) : m.load (linkTo ctx) = q := by
  cases ctx with
  | nil => exact h
  | cons f ctx => exact h.1

theorem linkTo_mem (h : linkTo ctx = .child s z) : z ∈ ids ctx := by
  cases ctx with
  | nil => cases h
  | cons f ctx =>
      obtain ⟨-, rfl⟩ : f.side = s ∧ f.value = z := by simpa [linkTo] using h
      simp [ids]

theorem top_mem (h : t.top = some z) : z ∈ t.inorder := by
  cases t with
  | nil => cases h
  | node c l x r =>
      obtain rfl : x = z := Option.some.inj h
      simp [inorder]

/-- Which child of the node above leads here. -/
theorem ContextAt.child_eq_iff (h : ContextAt m (some x) (f :: ctx)) (hx : x ∉ f.sibling.inorder) :
    (m.node f.value).child s = some x ↔ s = f.side := by
  obtain ⟨hside, -, hother, -⟩ := h
  constructor
  · intro hs
    by_contra hne
    rw [Side.eq_other hne, hother] at hs
    exact hx (top_mem hs)
  · rintro rfl
    exact hside

theorem Focus.apart (h : Focus m t ctx) (hz : z ∈ t.inorder) : z ∉ ids ctx := by
  have hn := (plug_perm t ctx).nodup_iff.1 h.2.2
  exact fun hctx ↦ (List.nodup_append.1 hn).2.2 z hz z hctx rfl

theorem Focus.child_eq_iff (h : Focus m t (f :: ctx)) (ht : t.top = some x) :
    (m.node f.value).child s = some x ↔ s = f.side := by
  have hsib : x ∉ f.sibling.inorder := fun hx ↦ h.apart (top_mem ht) (by simp [ids, hx])
  have hctx : ContextAt m (some x) (f :: ctx) := ht ▸ h.2.1
  exact hctx.child_eq_iff hsib

theorem TreeAt.rbParent_top (h : TreeAt m p t) (ht : t.top = some x) :
    (m.node x).rbParent = p := by
  obtain ⟨a, b, htree⟩ := exists_join .left ht
  rw [htree] at h
  exact (treeAt_join.1 h).1

theorem TreeAt.rbColor_top (h : TreeAt m p t) (ht : t.top = some x) :
    (m.node x).rbColor = t.color := by
  obtain ⟨a, b, htree⟩ := exists_join .left ht
  rw [htree] at h
  exact (treeAt_join.1 h).2.1

theorem not_mem_of_nodup (h : (ColorTree.node c a x b).inorder.Nodup) :
    x ∉ a.inorder ∧ x ∉ b.inorder := by
  have hx := (List.nodup_cons.1 (List.nodup_middle.1 h)).1
  rwa [List.mem_append, not_or] at hx

theorem TreeAt.frame (h : TreeAt m p t) (hsame : ∀ z ∈ t.inorder, m'.node z = m.node z) :
    TreeAt m' p t := by
  induction t generalizing p with
  | nil => trivial
  | node c l x r ihl ihr =>
      simp only [inorder, List.mem_append, List.mem_cons] at hsame
      obtain ⟨hp, hc, hl, hr, htl, htr⟩ := h
      have hx : m'.node x = m.node x := hsame x (.inr (.inl rfl))
      refine ⟨hx ▸ hp, hx ▸ hc, hx ▸ hl, hx ▸ hr, ?_, ?_⟩
      · apply ihl htl
        exact fun z hz ↦ hsame z (.inl hz)
      · apply ihr htr
        exact fun z hz ↦ hsame z (.inr (.inr hz))

theorem ContextAt.frame (h : ContextAt m q ctx) (hroot : m'.root = m.root)
    (hsame : ∀ z ∈ ids ctx, m'.node z = m.node z) : ContextAt m' q ctx := by
  induction ctx generalizing q with
  | nil => exact hroot.trans h
  | cons f ctx ih =>
      simp only [ids, List.flatMap_cons, List.mem_append, List.mem_cons] at hsame
      obtain ⟨hside, hc, hother, hp, hs, hrest⟩ := h
      have hf : m'.node f.value = m.node f.value := hsame _ (.inl (.inl rfl))
      refine ⟨hf ▸ hside, hf ▸ hc, hf ▸ hother, hf ▸ hp, ?_, ?_⟩
      · apply hs.frame
        exact fun z hz ↦ hsame z (.inl (.inr hz))
      · apply ih hrest
        exact fun z hz ↦ hsame z (.inr hz)

end

/-- Storing through the pointer that leads here replaces what hangs here. -/
theorem ContextAt.store (h : ContextAt m q ctx) (hn : (ids ctx).Nodup) :
    ContextAt (m.store (linkTo ctx) u) u ctx := by
  cases ctx with
  | nil => rfl
  | cons f ctx =>
      simp only [ids, List.flatMap_cons, List.cons_append, List.nodup_cons, List.mem_append,
        not_or] at hn
      obtain ⟨⟨hsib, hctx⟩, -⟩ := hn
      obtain ⟨-, hc, hother, hp, hs, hrest⟩ := h
      refine ⟨?_, by simpa using hc, ?_, by simpa using hp, ?_, ?_⟩
      · simp [linkTo]
      · simpa [linkTo] using hother
      · apply hs.frame
        exact fun z hz ↦ RbTree.setChild_node_ne fun hzf ↦ hsib (hzf ▸ hz)
      · apply hrest.frame
        · rfl
        · exact fun z hz ↦ RbTree.setChild_node_ne fun hzf ↦ hctx (hzf ▸ hz)

theorem TreeAt.reparent (h : TreeAt m p t) (hn : t.inorder.Nodup) (x : ι) :
    TreeAt (m.reparent t.top x) (some x) t := by
  cases t with
  | nil => trivial
  | node c l y r =>
      obtain ⟨-, hc, hl, hr, htl, htr⟩ := h
      obtain ⟨hyl, hyr⟩ := not_mem_of_nodup hn
      refine ⟨by simp [top], by simpa using hc, by simpa using hl, by simpa using hr,
        ?_, ?_⟩
      · apply htl.frame
        exact fun z hz ↦ RbTree.setParent_node_ne fun hzy ↦ hyl (hzy ▸ hz)
      · apply htr.frame
        exact fun z hz ↦ RbTree.setParent_node_ne fun hzy ↦ hyr (hzy ▸ hz)

theorem TreeAt.paint (h : TreeAt m p t) (hn : t.inorder.Nodup) (ht : t.top = some x) (c : Color) :
    TreeAt (m.setColor x c) p (t.paint c) := by
  cases t with
  | nil => cases ht
  | node c' l y r =>
      obtain rfl : y = x := Option.some.inj ht
      obtain ⟨hp, -, hl, hr, htl, htr⟩ := h
      obtain ⟨hyl, hyr⟩ := not_mem_of_nodup hn
      refine ⟨by simpa using hp, by simp, by simpa using hl, by simpa using hr,
        ?_, ?_⟩
      · apply htl.frame
        exact fun z hz ↦ RbTree.setColor_node_ne fun hzy ↦ hyl (hzy ▸ hz)
      · apply htr.frame
        exact fun z hz ↦ RbTree.setColor_node_ne fun hzy ↦ hyr (hzy ▸ hz)

theorem Focus.paint (h : Focus m t ctx) (ht : t.top = some x) (c : Color) :
    Focus (m.setColor x c) (t.paint c) ctx := by
  obtain ⟨htree, hctx, hn⟩ := h
  have hperm := (plug_perm t ctx).nodup_iff.1 hn
  obtain ⟨hnt, -, hdisj⟩ := List.nodup_append.1 hperm
  refine ⟨htree.paint hnt ht c, ?_, ?_⟩
  · rw [top_paint]
    apply hctx.frame
    · rfl
    · exact fun z hz ↦ RbTree.setColor_node_ne (hdisj x (top_mem ht) z hz).symm
  · rwa [plug_inorder_congr ctx (inorder_paint c t)]

/-- A new node with no children, stored at the place of an empty subtree. -/
theorem Focus.link (h : Focus m nil ctx) (hx : x ∉ ids ctx) :
    Focus ((((m.setParent x (above ctx)).setChild .right x none).setChild .left x none).store
      (linkTo ctx) (some x)) (.node (m.node x).rbColor nil x nil) ctx := by
  obtain ⟨-, hctx, hn⟩ := h
  have hids : (ids ctx).Nodup := by simpa [inorder] using (plug_perm nil ctx).nodup_iff.1 hn
  have hk : ∀ s, linkTo ctx ≠ .child s x := fun _ h ↦ hx (linkTo_mem h)
  have hleaf : ContextAt
      (((m.setParent x (above ctx)).setChild .right x none).setChild .left x none) none ctx := by
    apply hctx.frame
    · rfl
    intro z hz
    have hzx : z ≠ x := fun h ↦ hx (h ▸ hz)
    rw [RbTree.setChild_node_ne hzx, RbTree.setChild_node_ne hzx, RbTree.setParent_node_ne hzx]
  refine ⟨⟨?_, ?_, ?_, ?_, trivial, trivial⟩, hleaf.store hids, ?_⟩
  · simp
  · simp
  · simp [hk, Lib.ColorTree.top]
  · simp [hk, Lib.ColorTree.top]
  · apply (plug_perm _ ctx).nodup_iff.2
    simpa [inorder] using ⟨hx, hids⟩

end Cocool.Rbtree
