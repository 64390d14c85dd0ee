import Cocool.Lib.SearchTree
import Cocool.Rbtree.Traverse
import Cocool.Rbtree.Rebalance

/-!
# Erasing a node

`rb_erase` takes a node out of the tree, where a node with two children
gives its place to the next one in order.  When a black node is gone,
`rb_erase_rebalance` moves the subtree that is too short up until it can be
repaired.
-/

namespace Cocool.Rbtree

open Lib Lib.ColorTree Lib.Context

variable {ι : Type} [DecidableEq ι]

namespace RbTree

omit [DecidableEq ι] in
/-- `!q || q->rb_color == RB_BLACK`. -/
def isBlack (m : RbTree ι) (q : Option ι) : Bool :=
  match q with
  | none => true
  | some x => (m.node x).rbColor = .black

/-- `if (q) q->rb_color = c`. -/
def repaint (m : RbTree ι) (q : Option ι) (c : Color) : RbTree ι :=
  match q with
  | none => m
  | some x => m.setColor x c

/-- `if (q) q->rb_parent = p`. -/
def adopt (m : RbTree ι) (q p : Option ι) : RbTree ι :=
  match q with
  | none => m
  | some x => m.setParent x p

/-- The pointer that leads to `node` from `parent` now leads to `q`. -/
def replaceChild (m : RbTree ι) (parent : Option ι) (node : ι) (q : Option ι) : RbTree ι :=
  match parent with
  | none => m.store .root q
  | some p =>
      if (m.node p).rbLeft = some node then m.setChild .left p q else m.setChild .right p q

end RbTree

/-- How a pass of the loop ends: with `break`, or before the next test. -/
inductive Pass (ι : Type)
  | done (m : RbTree ι) (child : Option ι)
  | more (m : RbTree ι) (child parent : Option ι)

/-- `if (other->rb_color == RB_RED)` for a child on side `s` of `parent`. -/
def turnSibling (s : Side) (m : RbTree ι) (parent other : ι) : Except Fault (RbTree ι × ι) :=
  if (m.node other).rbColor = .red then do
    let m := (m.setColor other .black).setColor parent .red
    let m ← rotate s m parent
    match (m.node parent).child s.other with
    | none => .error .null
    | some other => return (m, other)
  else .ok (m, other)

/-- The test of the outer nephew, and the turn that makes it red. -/
def turnNephew (s : Side) (m : RbTree ι) (parent other : ι) : Except Fault (RbTree ι × ι) :=
  if m.isBlack ((m.node other).child s.other) then do
    let m := m.repaint ((m.node other).child s) .black
    let m := m.setColor other .red
    let m ← rotate s.other m other
    match (m.node parent).child s.other with
    | none => .error .null
    | some other => return (m, other)
  else .ok (m, other)

/-- One pass of the loop for a child on side `s` of `parent`. -/
def erasePass (s : Side) (m : RbTree ι) (parent : ι) : Except Fault (Pass ι) :=
  match (m.node parent).child s.other with
  | none => .error .null
  | some other => do
      let (m, other) ← turnSibling s m parent other
      if m.isBlack (m.node other).rbLeft && m.isBlack (m.node other).rbRight then
        let m := m.setColor other .red
        return .more m (some parent) (m.node parent).rbParent
      else
        let (m, other) ← turnNephew s m parent other
        let m := m.setColor other (m.node parent).rbColor
        let m := m.setColor parent .black
        let m := m.repaint ((m.node other).child s.other) .black
        let m ← rotate s m parent
        return .done m m.root

/-- The `while` loop of `rb_erase_rebalance`, with the last value of `child`. -/
def eraseRebalanceLoop :
    ℕ → RbTree ι → Option ι → Option ι → Except Fault (RbTree ι × Option ι)
  | 0, _, _, _ => .error .fuel
  | fuel + 1, m, child, parent =>
      if m.isBlack child && child ≠ m.root then
        match parent with
        | none => .error .null
        | some parent => do
            let s := if (m.node parent).rbLeft = child then Side.left else Side.right
            match ← erasePass s m parent with
            | .done m child => return (m, child)
            | .more m child parent => eraseRebalanceLoop fuel m child parent
      else .ok (m, child)

def rbEraseRebalance (fuel : ℕ) (m : RbTree ι) (child parent : Option ι) :
    Except Fault (RbTree ι) := do
  let (m, child) ← eraseRebalanceLoop fuel m child parent
  return m.repaint child .black

/-- `child` comes up to the place of `node`, which is under `parent`. -/
def unlink (m : RbTree ι) (node : ι) (child parent : Option ι) : RbTree ι :=
  (m.adopt child parent).replaceChild parent node child

/-- `node` takes over the links and the colour of `old`. -/
def takePlace (m : RbTree ι) (old node : ι) : Except Fault (RbTree ι) :=
  let m := m.setParent node (m.node old).rbParent
  let m := m.setColor node (m.node old).rbColor
  let m := m.setChild .right node (m.node old).rbRight
  let m := m.setChild .left node (m.node old).rbLeft
  let m := m.replaceChild (m.node old).rbParent old (some node)
  match (m.node old).rbLeft with
  | none => .error .null
  | some left =>
      let m := m.setParent left (some node)
      .ok (m.reparent (m.node old).rbRight node)

def rbErase (fuel : ℕ) (m : RbTree ι) (node : ι) : Except Fault (RbTree ι) :=
  match (m.node node).rbLeft, (m.node node).rbRight with
  | none, child => one child
  | some left, none => one (some left)
  | some _, some right => do
      let old := node
      let node ← descendLeft m fuel right
      let child := (m.node node).rbRight
      let parent := (m.node node).rbParent
      let color := (m.node node).rbColor
      let m := unlink m node child parent
      let parent := if (m.node node).rbParent = some old then some node else parent
      let m ← takePlace m old node
      if color = .black then rbEraseRebalance fuel m child parent else .ok m
where
  /-- A node with at most one child. -/
  one (child : Option ι) : Except Fault (RbTree ι) :=
    let parent := (m.node node).rbParent
    let color := (m.node node).rbColor
    let m := unlink m node child parent
    if color = .black then rbEraseRebalance fuel m child parent else .ok m

section Links

variable {m m' : RbTree ι} {p q u : Option ι} {x y z o v : ι} {s s' : Side} {c c' : Color}
  {t a b d e : ColorTree ι} {f : Frame ι} {ctx path : List (Frame ι)}

omit [DecidableEq ι] in
theorem focus_append : Focus m t (path ++ ctx) ↔ Focus m (t.plug path) ctx := by
  rw [focus_plug, plug_append, ← focus_plug]

omit [DecidableEq ι] in
theorem TreeAt.isBlack (h : TreeAt m p t) : m.isBlack t.top = decide (t.color = .black) := by
  cases htop : t.top with
  | none => simp [RbTree.isBlack, color_of_top htop]
  | some x => simp [RbTree.isBlack, h.rbColor_top htop]

/-- Painting the root of a subtree, seen from above the path to it. -/
theorem Focus.repaint (path : List (Frame ι)) (h : Focus m (t.plug path) ctx) (c : Color) :
    Focus (m.repaint t.top c) ((t.paint c).plug path) ctx := by
  cases htop : t.top with
  | none =>
      cases t with
      | nil => exact h
      | node => cases htop
  | some x => exact focus_append.1 ((focus_append.2 h).paint htop c)

omit [DecidableEq ι] in
/-- Only at the top of the tree is the root pointer the one that leads here. -/
theorem Focus.top_eq_root (h : Focus m t ctx) : t.top = m.root ↔ ctx = [] := by
  constructor
  · intro htop
    cases ctx with
    | nil => rfl
    | cons f ctx =>
        obtain ⟨z, hz, hplug⟩ := exists_plug_top t f ctx
        have hroot : m.root = (t.plug (f :: ctx)).top := (focus_plug.1 h).2.1
        have ht : t.top = some z := htop.trans (hroot.trans hplug)
        exact (h.apart (top_mem ht) hz).elim
  · rintro rfl
    exact h.2.1.symm

/-- The branch of the loop is the one for the side of the child, as the
other child is not NULL. -/
theorem erase_branch_side (h : Focus m t (f :: ctx)) (hs : f.sibling.top ≠ none) :
    (if (m.node f.value).rbLeft = t.top then Side.left else .right) = f.side := by
  obtain ⟨hchild, -, hother, -⟩ := h.2.1
  have hne : f.sibling.top ≠ t.top := by
    cases htop : t.top with
    | none => exact hs
    | some x =>
        intro hsib
        exact h.apart (top_mem htop) (by simp [ids, top_mem hsib])
  cases hf : f.side with
  | left =>
      rw [hf] at hchild
      exact if_pos hchild
  | right =>
      rw [hf] at hother
      have hleft : (m.node f.value).rbLeft = f.sibling.top := hother
      exact if_neg (hleft ▸ hne)

omit [DecidableEq ι] in
/-- Seen from the node above, the sibling is a subtree as well. -/
theorem plug_sibling (s : Side) (c : Color) (v : ι) (t e : ColorTree ι) :
    e.plug [⟨s.other, c, v, t⟩] = join s c t v e := join_other ..

/-- What `turnSibling` leaves: a black sibling, and the same nodes in order. -/
theorem turnSibling_spec (h : Focus m t (⟨s, c, v, e⟩ :: ctx)) (hshort : Short t (⟨s, c, v, e⟩ :: ctx))
    (ho : e.top = some o) :
    ∃ m' o' c' a b ctx', turnSibling s m v o = .ok (m', o') ∧
      Focus m' t (⟨s, c', v, join s .black a o' b⟩ :: ctx') ∧
      Short t (⟨s, c', v, join s .black a o' b⟩ :: ctx') ∧ (c' = .red ∨ ctx' = ctx) ∧
      (t.plug (⟨s, c', v, join s .black a o' b⟩ :: ctx')).inorder =
        (t.plug (⟨s, c, v, e⟩ :: ctx)).inorder := by
  obtain ⟨a, b, he⟩ := exists_join s ho
  have hcolor : (m.node o).rbColor = e.color := (focus_sibling.1 h).1.rbColor_top ho
  cases hc : e.color with
  | black =>
      rw [hc] at he
      subst he
      refine ⟨m, o, c, a, b, ctx, ?_, h, hshort, .inr rfl, rfl⟩
      rw [turnSibling, if_neg (by simp [hcolor, hc])]
  | red =>
      rw [hc] at he
      subst he
      obtain ⟨hturned, rfl, hac, hane⟩ := hshort.turnRed
      have hother : Focus (m.setColor o .black) (join s .black t v (join s .black a o b)) ctx := by
        have hwhole : Focus m ((join s .red a o b).plug [⟨s.other, .black, v, t⟩]) ctx := by
          rw [plug_sibling]
          exact focus_cons.1 h
        have hpaint := hwhole.repaint _ .black
        rwa [paint_join, plug_sibling, top_join] at hpaint
      have hparent : Focus ((m.setColor o .black).setColor v .red)
          (join s .red t v (join s .black a o b)) ctx := by
        simpa using hother.paint (top_join ..) .red
      obtain ⟨m', hm', hrot⟩ := rotate_spec hparent
      have hfocus : Focus m' t (⟨s, .red, v, a⟩ :: ⟨s, .black, o, b⟩ :: ctx) :=
        focus_cons.2 (focus_cons.2 hrot)
      cases htop : a.top with
      | none => exact (hane htop).elim
      | some o' =>
          obtain ⟨a', b', ha⟩ := exists_join s htop
          rw [hac] at ha
          subst ha
          have hread : (m'.node v).child s.other = some o' := by simpa using hfocus.2.1.2.2.1
          refine ⟨m', o', .red, a', b', ⟨s, .black, o, b⟩ :: ctx, ?_, hfocus, hturned, .inl rfl, ?_⟩
          · rw [turnSibling, if_pos (by simp [hcolor, hc])]
            simp only [hm', bind, Except.bind, hread]
            rfl
          · apply plug_inorder_congr ctx
            cases s <;> simp [attach, join, inorder]

/-- What `turnNephew` leaves: a red outer nephew, and the same nodes in
order. -/
theorem turnNephew_spec (h : Focus m t (⟨s, c, v, join s .black a o b⟩ :: ctx))
    (hshort : Short t (⟨s, c, v, join s .black a o b⟩ :: ctx))
    (hred : ¬(a.color = .black ∧ b.color = .black)) :
    ∃ m' o' a' b', turnNephew s m v o = .ok (m', o') ∧
      Focus m' t (⟨s, c, v, join s .black a' o' b'⟩ :: ctx) ∧
      Short t (⟨s, c, v, join s .black a' o' b'⟩ :: ctx) ∧ b'.color = .red ∧
      (t.plug (⟨s, c, v, join s .black a' o' b'⟩ :: ctx)).inorder =
        (t.plug (⟨s, c, v, join s .black a o b⟩ :: ctx)).inorder := by
  obtain ⟨-, -, hinner, houter, ha, hb⟩ := treeAt_join.1 (focus_sibling.1 h).1
  have htest : m.isBlack ((m.node o).child s.other) = decide (b.color = .black) := by
    rw [houter, hb.isBlack]
  cases hbc : b.color with
  | red =>
      refine ⟨m, o, a, b, ?_, h, hshort, hbc, rfl⟩
      rw [turnNephew, if_neg (by simp [htest, hbc])]
  | black =>
      have hac : a.color = .red := by
        cases hac : a.color with
        | red => rfl
        | black => exact absurd ⟨hac, hbc⟩ hred
      obtain ⟨i, hi⟩ : ∃ i, a.top = some i := by
        cases hi : a.top with
        | none => exact absurd (hac.symm.trans (color_of_top hi)) nofun
        | some i => exact ⟨i, rfl⟩
      obtain ⟨a₁, a₂, haj⟩ := exists_join s hi
      rw [hac] at haj
      subst haj
      -- the two repaintings, each of them at its own place
      have hsib : Focus m ((join s .red a₁ i a₂).plug [⟨s, .black, o, b⟩])
          (⟨s.other, c, v, t⟩ :: ctx) := focus_sibling.1 h
      have hpaint := (hsib.repaint _ .black).paint (top_join ..) .red
      have hturn : Focus ((m.repaint (join s .red a₁ i a₂).top .black).setColor o .red)
          (join s.other .red b o (join s.other .black a₂ i a₁)) (⟨s.other, c, v, t⟩ :: ctx) := by
        rw [join_other, join_other]
        simpa [plug, attach] using hpaint
      obtain ⟨m', hm', hrot⟩ := rotate_spec hturn
      rw [join_other, join_other] at hrot
      have hfocus : Focus m' t (⟨s, c, v, join s .black a₁ i (join s .red a₂ o b)⟩ :: ctx) :=
        focus_sibling.2 hrot
      have hread : (m'.node v).child s.other = some i := by simpa using hfocus.2.1.2.2.1
      refine ⟨m', i, a₁, _, ?_, hfocus, hshort.turnInner hbc, color_join .., ?_⟩
      · rw [turnNephew, if_pos (by simp [htest, hbc]), hinner]
        simp only [hm', bind, Except.bind, hread]
        rfl
      · apply plug_inorder_congr ctx
        cases s <;> simp [attach, join, inorder]

/-- The last turn, where the outer nephew becomes black. -/
theorem turnLast_spec (h : Focus m t (⟨s, c, v, join s .black a o b⟩ :: ctx)) :
    ∃ m', rotate s (((m.setColor o c).setColor v .black).repaint b.top .black) v = .ok m' ∧
      Focus m' (join s c (join s .black t v a) o (b.paint .black)) ctx := by
  have hsib : Focus m ((join s .black a o b).plug [⟨s.other, c, v, t⟩]) ctx := by
    rw [plug_sibling]
    exact focus_cons.1 h
  have hother : Focus (m.setColor o c) (join s c t v (join s c a o b)) ctx := by
    have hpaint := hsib.repaint _ c
    rwa [paint_join, plug_sibling, top_join] at hpaint
  have hparent := hother.paint (top_join ..) .black
  have hnephew : Focus ((m.setColor o c).setColor v .black)
      (b.plug [⟨s.other, c, o, a⟩, ⟨s.other, .black, v, t⟩]) ctx := by
    rw [paint_join] at hparent
    simpa [plug, attach, join_other] using hparent
  have hlast := hnephew.repaint _ .black
  simp only [plug, attach, join_other] at hlast
  exact rotate_spec hlast

/-- A pass balances the tree, or it moves the place up, or it makes the root
of the subtree red. -/
theorem erasePass_spec (h : Focus m t (⟨s, c, v, e⟩ :: ctx)) (hshort : Short t (⟨s, c, v, e⟩ :: ctx))
    (ht : t.color = .black) :
    ∃ m' t' ctx', Focus m' t' ctx' ∧
      (t'.plug ctx').inorder = (t.plug (⟨s, c, v, e⟩ :: ctx)).inorder ∧
      ((erasePass s m v = .ok (.done m' t'.top) ∧ ctx' = [] ∧ Fits t' []) ∨
        (erasePass s m v = .ok (.more m' t'.top (above ctx')) ∧ Short t' ctx' ∧
          (t'.color = .red ∨ ctx' = ctx))) := by
  obtain ⟨_, o, _, he⟩ := hshort.exists_sibling s
  have ho : e.top = some o := by
    have htop : e.top = _ := congrArg top he
    rwa [top_join] at htop
  have hread : (m.node v).child s.other = some o := h.2.1.2.2.1.trans ho
  obtain ⟨m₁, o₁, c₁, a, b, ctx₁, hsib, hf₁, hs₁, hc₁, hord₁⟩ := turnSibling_spec h hshort ho
  obtain ⟨-, -, ha, hb, hta, htb⟩ := treeAt_join.1 (focus_sibling.1 hf₁).1
  have htest : (m₁.isBlack (m₁.node o₁).rbLeft && m₁.isBlack (m₁.node o₁).rbRight) =
      decide (a.color = .black ∧ b.color = .black) := by
    have hside : m₁.isBlack ((m₁.node o₁).child s) = decide (a.color = .black) := by
      rw [ha, hta.isBlack]
    have hother : m₁.isBlack ((m₁.node o₁).child s.other) = decide (b.color = .black) := by
      rw [hb, htb.isBlack]
    cases s
    · rw [Bool.decide_and]
      exact congrArg₂ and hside hother
    · rw [Bool.decide_and, Bool.and_comm (decide _)]
      exact congrArg₂ and hother hside
  by_cases hblack : a.color = .black ∧ b.color = .black
  · have hfocus : Focus (m₁.setColor o₁ .red) (join s c₁ t v (join s .red a o₁ b)) ctx₁ := by
      have hwhole : Focus m₁ ((join s .black a o₁ b).plug [⟨s.other, c₁, v, t⟩]) ctx₁ := by
        rw [plug_sibling]
        exact focus_cons.1 hf₁
      have hpaint := hwhole.repaint _ .red
      rwa [paint_join, plug_sibling, top_join] at hpaint
    refine ⟨_, _, ctx₁, hfocus, ?_, .inr ⟨?_, hs₁.moveUp ht hblack.1 hblack.2, ?_⟩⟩
    · rw [← hord₁]
      apply plug_inorder_congr ctx₁
      cases s <;> simp [attach, join, inorder]
    · have hparent := hfocus.1.rbParent_top (top_join ..)
      simp only [erasePass, hread, hsib, bind, Except.bind, htest, hblack, and_self, decide_true,
        if_true, hparent, top_join]
      rfl
    · exact hc₁.imp (fun hc ↦ (color_join ..).trans hc) id
  · obtain ⟨m₂, o₂, a', b', hneph, hf₂, hs₂, hb', hord₂⟩ := turnNephew_spec hf₁ hs₁ hblack
    obtain ⟨m₃, hrot, hf₃⟩ := turnLast_spec hf₂
    have hfits := hs₂.turnOuter ht hb'
    refine ⟨m₃, _, [], focus_plug.1 hf₃, ?_, .inl ⟨?_, rfl, fits_plug.1 hfits⟩⟩
    · rw [← hord₁, ← hord₂]
      apply plug_inorder_congr ctx₁
      cases s <;> simp [attach, join, inorder]
    · have hcolor : (m₂.node v).rbColor = c₁ := hf₂.2.1.2.1
      have hnephew : (((m₂.setColor o₂ c₁).setColor v .black).node o₂).child s.other = b'.top := by
        simpa using (treeAt_join.1 (focus_sibling.1 hf₂).1).2.2.2.1
      have hroot : m₃.root = _ := (focus_plug.1 hf₃).2.1
      simp only [erasePass, hread, hsib, bind, Except.bind, htest, hblack, decide_false,
        Bool.false_eq_true, if_false, hneph, hcolor, hnephew, hrot, hroot]
      rfl

section Loop

variable {fuel : ℕ} {child : Option ι}

theorem eraseRebalanceLoop_stop (h : (m.isBlack child && decide (child ≠ m.root)) = false) :
    eraseRebalanceLoop (fuel + 1) m child q = .ok (m, child) := by
  unfold eraseRebalanceLoop
  rw [h]
  rfl

theorem eraseRebalanceLoop_pass (fuel : ℕ) (parent : ι)
    (h : (m.isBlack child && decide (child ≠ m.root)) = true) :
    eraseRebalanceLoop (fuel + 1) m child (some parent) =
      erasePass (if (m.node parent).rbLeft = child then .left else .right) m parent >>= fun
        | .done m child => return (m, child)
        | .more m child parent => eraseRebalanceLoop fuel m child parent := by
  simp only [eraseRebalanceLoop, h, if_true]

/-- The loop ends where the root of the subtree can take the missing black
node. -/
theorem eraseRebalanceLoop_spec (hpos : 0 < fuel)
    (hfuel : t.color = .red ∨ ctx.length < fuel) (h : Focus m t ctx) (hshort : Short t ctx) :
    ∃ m' t' ctx', eraseRebalanceLoop fuel m t.top (above ctx) = .ok (m', t'.top) ∧
      Focus m' t' ctx' ∧ Fits (t'.paint .black) ctx' ∧
      (t'.plug ctx').inorder = (t.plug ctx).inorder := by
  induction fuel generalizing m t ctx with
  | zero => omega
  | succ fuel ih =>
      have htest : (m.isBlack t.top && decide (t.top ≠ m.root)) =
          decide (t.color = .black ∧ ctx ≠ []) := by
        simp only [h.1.isBlack, ne_eq, h.top_eq_root, Bool.decide_and]
      cases hc : t.color with
      | red =>
          refine ⟨m, t, ctx, eraseRebalanceLoop_stop ?_, h, hshort.paint_red hc, rfl⟩
          rw [htest]
          simp [hc]
      | black =>
          cases ctx with
          | nil =>
              refine ⟨m, t, [], eraseRebalanceLoop_stop ?_, h, hshort.paint_root, rfl⟩
              rw [htest]
              simp
          | cons f ctx =>
              obtain ⟨s, c, v, e⟩ := f
              have hlen : ctx.length < fuel := by
                rcases hfuel with hred | hlen
                · exact absurd (hred.symm.trans hc) nofun
                · exact Nat.lt_of_succ_lt_succ hlen
              have hside := erase_branch_side h (by
                obtain ⟨_, _, _, hsib⟩ := hshort.exists_sibling s
                rw [hsib, top_join]
                nofun)
              obtain ⟨m', t', ctx', hfocus, hord, hpass⟩ := erasePass_spec h hshort hc
              have hrun := eraseRebalanceLoop_pass fuel v (htest.trans (by simp [hc]))
              rw [hside] at hrun
              rcases hpass with ⟨hdone, rfl, hfits⟩ | ⟨hmore, hshort', hctx⟩
              · refine ⟨m', t', [], ?_, hfocus, ?_, hord⟩
                · rw [above_cons, hrun, hdone]
                  rfl
                · rwa [paint_color (fits_nil.1 hfits).2]
              · have hfuel' : t'.color = .red ∨ ctx'.length < fuel :=
                  hctx.imp id fun (hctx : ctx' = ctx) ↦ hctx ▸ hlen
                obtain ⟨m'', t'', ctx'', hloop, hfocus', hfits, hord'⟩ :=
                  ih (by omega) hfuel' hfocus hshort'
                refine ⟨m'', t'', ctx'', ?_, hfocus', hfits, hord'.trans hord⟩
                rw [above_cons, hrun, hmore]
                exact hloop

/-- The tree around a subtree that is too short comes out balanced. -/
theorem rbEraseRebalance_spec (hfuel : ctx.length < fuel) (h : Focus m t ctx)
    (hshort : Short t ctx) :
    ∃ m' r, rbEraseRebalance fuel m t.top (above ctx) = .ok m' ∧ Focus m' r [] ∧ Fits r [] ∧
      r.inorder = (t.plug ctx).inorder := by
  obtain ⟨m', t', ctx', hloop, hfocus, hfits, hord⟩ :=
    eraseRebalanceLoop_spec (Nat.zero_lt_of_lt hfuel) (.inr hfuel) h hshort
  have hpaint : Focus (m'.repaint t'.top .black) (t'.paint .black) ctx' :=
    focus_plug.2 (by simpa using (focus_plug.1 hfocus).repaint ctx' .black)
  refine ⟨_, _, ?_, focus_plug.1 hpaint, fits_plug.1 hfits, ?_⟩
  · simp only [rbEraseRebalance, hloop, bind, Except.bind]
    rfl
  · rw [plug_inorder_congr ctx' (inorder_paint .black t'), hord]

end Loop

omit [DecidableEq ι] in
/-- The nodes around a place, each of them once. -/
theorem Focus.nodup (h : Focus m t ctx) : t.inorder.Nodup ∧ (ids ctx).Nodup :=
  have hn := List.nodup_append.1 ((plug_perm t ctx).nodup_iff.1 h.2.2)
  ⟨hn.1, hn.2.1⟩

theorem RbTree.adopt_node_ne (h : q ≠ some z) : (m.adopt q p).node z = m.node z := by
  cases q with
  | none => rfl
  | some x => exact setParent_node_ne fun hz ↦ h (hz ▸ rfl)

@[simp] theorem RbTree.adopt_rbColor : ((m.adopt q p).node z).rbColor = (m.node z).rbColor := by
  cases q <;> simp [adopt]

@[simp] theorem RbTree.adopt_child : ((m.adopt q p).node z).child s = (m.node z).child s := by
  cases q <;> simp [adopt]

theorem RbTree.adopt_root : (m.adopt q p).root = m.root := by
  cases q <;> rfl

/-- The pointer of the parent is the one that leads here. -/
theorem ContextAt.replaceChild (h : ContextAt m (some x) ctx) (hx : x ∉ ids ctx) :
    m.replaceChild (above ctx) x q = m.store (linkTo ctx) q := by
  cases ctx with
  | nil => rfl
  | cons f ctx =>
      have hsib : x ∉ f.sibling.inorder := fun hsib ↦ hx (by simp [ids, hsib])
      have hleft : (m.node f.value).rbLeft = some x ↔ Side.left = f.side :=
        h.child_eq_iff (s := .left) hsib
      simp only [RbTree.replaceChild, above_cons, hleft, linkTo, RbTree.store]
      cases f.side <;> rfl

theorem TreeAt.adopt (h : TreeAt m p t) (hn : t.inorder.Nodup) (q : Option ι) :
    TreeAt (m.adopt t.top q) q t := by
  cases t with
  | nil => trivial
  | node c l y r =>
      obtain ⟨-, hc, hl, hr, htl, htr⟩ := h
      obtain ⟨hyl, hyr⟩ := not_mem_of_nodup hn
      refine ⟨by simp [RbTree.adopt, Lib.ColorTree.top], by simpa using hc, by simpa using hl,
        by simpa using hr, ?_, ?_⟩
      · apply htl.frame
        exact fun z hz ↦ RbTree.setParent_node_ne fun hzy ↦ hyl (hzy ▸ hz)
      · apply htr.frame
        exact fun z hz ↦ RbTree.setParent_node_ne fun hzy ↦ hyr (hzy ▸ hz)

/-- A node with one child gives its place to it, whatever the node holds. -/
theorem Focus.unlink (h : Focus m (join s c nil x t) ctx) :
    Focus (unlink m x t.top (above ctx)) t ctx ∧ x ∉ (t.plug ctx).inorder ∧
      (unlink m x t.top (above ctx)).node x = m.node x := by
  obtain ⟨htree, hctx, hn⟩ := h
  obtain ⟨-, -, -, -, -, ht⟩ := treeAt_join.1 htree
  rw [top_join] at hctx
  have hperm : ((join s c nil x t).plug ctx).inorder.Perm (x :: t.inorder ++ ids ctx) :=
    (plug_perm _ ctx).trans ((inorder_join_perm ..).append_right _)
  have hnodup := hperm.nodup_iff.1 hn
  simp only [List.cons_append, List.nodup_cons, List.mem_append, not_or, List.nodup_append]
    at hnodup
  obtain ⟨⟨hxt, hxc⟩, hnt, hnc, hdisj⟩ := hnodup
  have htop : ∀ z ∈ ids ctx, t.top ≠ some z := fun z hz hzt ↦ hdisj z (top_mem hzt) z hz rfl
  have hmoved : ContextAt (m.adopt t.top (above ctx)) (some x) ctx := by
    apply hctx.frame
    · exact RbTree.adopt_root
    · exact fun z hz ↦ RbTree.adopt_node_ne (htop z hz)
  have hlink : ∀ z ∉ ids ctx, ∀ s, linkTo ctx ≠ .child s z := fun z hz _ hk ↦ hz (linkTo_mem hk)
  rw [Cocool.Rbtree.unlink, hmoved.replaceChild hxc]
  refine ⟨⟨?_, hmoved.store hnc, ?_⟩, ?_, ?_⟩
  · apply (ht.adopt hnt (above ctx)).frame
    intro z hz
    apply RbTree.store_node_ne
    exact hlink z fun hzc ↦ hdisj z hz z hzc rfl
  · apply (plug_perm t ctx).nodup_iff.2
    exact List.nodup_append.2 ⟨hnt, hnc, hdisj⟩
  · rw [(plug_perm t ctx).mem_iff, List.mem_append, not_or]
    exact ⟨hxt, hxc⟩
  · rw [RbTree.store_node_ne (hlink x hxc)]
    exact RbTree.adopt_node_ne fun hx ↦ hxt (top_mem hx)

/-- The memory with the fields of `y` filled in. -/
def filled (m : RbTree ι) (y : ι) (p : Option ι) (c : Color) (a b : Option ι) : RbTree ι :=
  (((m.setParent y p).setColor y c).setChild .right y b).setChild .left y a

theorem filled_node_ne (hz : z ≠ y) : (filled m y p c q u).node z = m.node z := by
  rw [filled, RbTree.setChild_node_ne hz, RbTree.setChild_node_ne hz, RbTree.setColor_node_ne hz,
    RbTree.setParent_node_ne hz]

/-- The memory after `y` has come to the place of a node with the children
`a` and `b`. -/
def placed (m : RbTree ι) (y : ι) (c : Color) (a b : Option ι) (ctx : List (Frame ι)) :
    RbTree ι :=
  (((filled m y (above ctx) c a b).store (linkTo ctx) (some y)).reparent a y).reparent b y

theorem takePlace_eq (h : TreeAt m (above ctx) (.node c a x b)) (hctx : ContextAt m (some x) ctx)
    (ha : a.top ≠ none) (hax : a.top ≠ some x) (hxy : x ≠ y) (hx : x ∉ ids ctx)
    (hy : y ∉ ids ctx) : takePlace m x y = .ok (placed m y c a.top b.top ctx) := by
  obtain ⟨hp, hc, hl, hr, -, -⟩ := h
  have hleft : (m.node x).rbLeft = a.top := hl
  have hright : (m.node x).rbRight = b.top := hr
  have hfilled : ContextAt (filled m y (above ctx) c a.top b.top) (some x) ctx := by
    apply hctx.frame
    · rfl
    · exact fun z hz ↦ filled_node_ne fun hzy ↦ hy (hzy ▸ hz)
  have hlink : ∀ s, linkTo ctx ≠ .child s x := fun _ hk ↦ hx (linkTo_mem hk)
  have hreplace := hfilled.replaceChild (q := some y) hx
  simp only [filled] at hreplace
  simp only [takePlace, RbTree.setParent_node_ne hxy, RbTree.setColor_node_ne hxy,
    RbTree.setChild_node_ne hxy, hp, hc, hleft, hright, hreplace, RbTree.store_node_ne hlink]
  cases htop : a.top with
  | none => exact (ha htop).elim
  | some left =>
      have hxl : x ≠ left := fun hxl ↦ hax (hxl ▸ htop)
      simp only [placed, filled, RbTree.reparent, RbTree.setParent_node_ne hxl,
        RbTree.store_node_ne hlink, RbTree.setChild_node_ne hxy, RbTree.setColor_node_ne hxy,
        RbTree.setParent_node_ne hxy, hright]

theorem placed_context (hctx : ContextAt m (some x) ctx) (hn : (ids ctx).Nodup) (hy : y ∉ ids ctx)
    (hq : ∀ z ∈ ids ctx, q ≠ some z) (hu : ∀ z ∈ ids ctx, u ≠ some z) :
    ContextAt (placed m y c q u ctx) (some y) ctx := by
  have hfilled : ContextAt (filled m y (above ctx) c q u) (some x) ctx := by
    apply hctx.frame
    · rfl
    · exact fun z hz ↦ filled_node_ne fun hzy ↦ hy (hzy ▸ hz)
  apply (hfilled.store hn).frame
  · rw [placed, RbTree.reparent_root, RbTree.reparent_root]
  · intro z hz
    rw [placed, RbTree.reparent_node_ne (hu z hz), RbTree.reparent_node_ne (hq z hz)]

/-- Both subtrees change from the old node to `y`. -/
theorem placed_child (ht : TreeAt m (some x) t) (hn : t.inorder.Nodup) (hy : y ∉ t.inorder)
    (hctx : ∀ z ∈ t.inorder, z ∉ ids ctx) (hq : ∀ z ∈ t.inorder, q ≠ some z) :
    TreeAt (placed m y c t.top q ctx) (some y) t ∧ TreeAt (placed m y c q t.top ctx) (some y) t := by
  have hstored (u v : Option ι) : ∀ z ∈ t.inorder,
      ((filled m y (above ctx) c u v).store (linkTo ctx) (some y)).node z = m.node z := by
    intro z hz
    rw [RbTree.store_node_ne fun _ hk ↦ hctx z hz (linkTo_mem hk),
      filled_node_ne (ne_of_mem_of_not_mem hz hy)]
  constructor
  · apply ((ht.frame (hstored t.top q)).reparent hn y).frame
    exact fun z hz ↦ RbTree.reparent_node_ne (hq z hz)
  · refine TreeAt.reparent (ht.frame fun z hz ↦ ?_) hn y
    exact (RbTree.reparent_node_ne (hq z hz)).trans (hstored q t.top z hz)

/-- Another node takes the place of one with two children. -/
theorem Focus.takePlace (h : Focus m (.node c a x b) ctx) (ha : a.top ≠ none)
    (hy : y ∉ ((ColorTree.node c a x b).plug ctx).inorder) :
    ∃ m', takePlace m x y = .ok m' ∧ Focus m' (.node c a y b) ctx := by
  obtain ⟨htree, hctx, hn⟩ := h
  obtain ⟨-, -, -, -, hat, hbt⟩ := id htree
  have hperm : ((ColorTree.node c a x b).plug ctx).inorder.Perm
      (x :: (a.inorder ++ b.inorder) ++ ids ctx) :=
    (plug_perm _ ctx).trans (List.perm_middle.append_right _)
  have hnodup := hperm.nodup_iff.1 hn
  rw [hperm.mem_iff] at hy
  simp only [List.cons_append, List.nodup_cons, List.mem_cons, List.mem_append, not_or,
    List.append_assoc, List.nodup_append] at hnodup hy
  obtain ⟨⟨hxa, -, hxc⟩, hna, ⟨hnb, hnc, hbc⟩, habc⟩ := hnodup
  obtain ⟨hyx, hya, hyb, hyc⟩ := hy
  have hlink : ∀ s, linkTo ctx ≠ .child s y := fun _ hk ↦ hyc (linkTo_mem hk)
  have hay : a.top ≠ some y := fun htop ↦ hya (top_mem htop)
  have hby : b.top ≠ some y := fun htop ↦ hyb (top_mem htop)
  refine ⟨_, takePlace_eq htree hctx ha (fun htop ↦ hxa (top_mem htop)) (Ne.symm hyx) hxc hyc,
    ⟨?_, ?_, ?_, ?_, ?_, ?_⟩, ?_, ?_⟩
  · simp [placed, filled, hay, hby]
  · simp [placed, filled]
  · simp [placed, filled, hlink]
  · simp [placed, filled, hlink]
  · refine (placed_child hat hna hya (fun z hz hzc ↦ ?_) fun z hz hzb ↦ ?_).1
    · exact habc z hz z (.inr hzc) rfl
    · exact habc z hz z (.inl (top_mem hzb)) rfl
  · refine (placed_child hbt hnb hyb (fun z hz hzc ↦ ?_) fun z hz hza ↦ ?_).2
    · exact hbc z hz z hzc rfl
    · exact habc z (top_mem hza) z (.inl hz) rfl
  · apply placed_context hctx hnc hyc
    · exact fun z hz hza ↦ habc z (top_mem hza) z (.inr hz) rfl
    · exact fun z hz hzb ↦ hbc z (top_mem hzb) z hz rfl
  · have hperm' : ((ColorTree.node c a y b).plug ctx).inorder.Perm
        (y :: (a.inorder ++ b.inorder) ++ ids ctx) :=
      (plug_perm _ ctx).trans (List.perm_middle.append_right _)
    apply hperm'.nodup_iff.2
    simp only [List.cons_append, List.nodup_cons, List.mem_append, not_or, List.append_assoc,
      List.nodup_append]
    exact ⟨⟨hya, hyb, hyc⟩, hna, ⟨hnb, hnc, hbc⟩, habc⟩

/-- `rb_erase` after the node is gone: only a black one is missed. -/
theorem rebalance_gone {fuel : ℕ} (hfuel : ctx.length < fuel) (h : Focus m t ctx)
    (hgone : (c = .red → Fits t ctx) ∧ (c = .black → Short t ctx)) :
    ∃ m' r, (if c = .black then rbEraseRebalance fuel m t.top (above ctx) else .ok m) = .ok m' ∧
      Focus m' r [] ∧ Fits r [] ∧ r.inorder = (t.plug ctx).inorder := by
  cases c with
  | red => exact ⟨m, _, rfl, focus_plug.1 h, fits_plug.1 (hgone.1 rfl), rfl⟩
  | black => exact rbEraseRebalance_spec hfuel h (hgone.2 rfl)

omit [DecidableEq ι] in
/-- The parent from which the rebalancing starts, when `y` has come to the
place of its own parent or of a node further up. -/
theorem above_renamed [DecidableEq ι] (hx : x ∉ ids path) :
    (if above (path ++ ⟨s, c, x, a⟩ :: ctx) = some x then some y
      else above (path ++ ⟨s, c, x, a⟩ :: ctx)) = above (path ++ ⟨s, c, y, a⟩ :: ctx) := by
  cases path with
  | nil => exact if_pos rfl
  | cons f path =>
      apply if_neg
      intro habove
      obtain rfl : f.value = x := Option.some.inj habove
      exact hx (by simp [ids])

omit [DecidableEq ι] in
theorem descendLeft_depth {fuel : ℕ} (h : TreeAt m p t) (ht : t.top = some x)
    (hfuel : t.depth ≤ fuel) :
    ∃ y, descendLeft m fuel x = .ok y ∧ t.inorder.head? = some y := by
  induction t generalizing p x fuel with
  | nil => cases ht
  | node c l z r ihl _ =>
      obtain rfl : z = x := Option.some.inj ht
      obtain ⟨-, -, hleft, -, hl, -⟩ := h
      have hread : (m.node z).rbLeft = l.top := hleft
      rw [depth] at hfuel
      obtain ⟨fuel, rfl⟩ : ∃ k, fuel = k + 1 := ⟨fuel - 1, by omega⟩
      rw [descendLeft, hread]
      cases htop : l.top with
      | none =>
          cases l with
          | nil => exact ⟨z, rfl, rfl⟩
          | node => cases htop
      | some y =>
          have hlen : l.depth ≤ fuel := by omega
          obtain ⟨w, hw, hhead⟩ := ihl hl htop hlen
          refine ⟨w, hw, ?_⟩
          rw [inorder, List.head?_append, hhead]
          rfl

/-- A node with two children: the next one in order takes its place. -/
theorem rbErase_two {fuel : ℕ} (hfuel : ((ColorTree.node c a x b).plug ctx).depth ≤ fuel)
    (h : Focus m (.node c a x b) ctx) (hfits : Fits (.node c a x b) ctx) (ha : a.top ≠ none)
    (hb : b.top ≠ none) :
    ∃ m' r, rbErase fuel m x = .ok m' ∧ Focus m' r [] ∧ Fits r [] ∧
      r.inorder = before ctx ++ (a.inorder ++ b.inorder) ++ after ctx := by
  obtain ⟨-, -, hleft, hright, -, hbt⟩ := h.1
  obtain ⟨left, hl⟩ : ∃ left, a.top = some left := Option.ne_none_iff_exists'.1 ha
  obtain ⟨right, hr⟩ : ∃ right, b.top = some right := Option.ne_none_iff_exists'.1 hb
  -- the next node in order, and where it stands
  obtain ⟨c', y, d, path, hplug, hbefore⟩ : ∃ c' y d path,
      (ColorTree.node c' nil y d).plug path = b ∧ before path = [] := by
    cases b with
    | nil => exact (hb rfl).elim
    | node cb l z r => exact exists_leftmost l cb z r
  have hbord : b.inorder = y :: (d.inorder ++ after path) := by
    rw [← hplug, plug_inorder, hbefore]
    rfl
  have hfull : Focus m (join .left c' nil y d) (path ++ ⟨.right, c, x, a⟩ :: ctx) := by
    rw [focus_append]
    exact focus_cons.2 (hplug ▸ h)
  have hfitsFull : Fits (join .left c' nil y d) (path ++ ⟨.right, c, x, a⟩ :: ctx) := by
    rw [fits_append]
    exact fits_cons.2 (hplug ▸ hfits)
  have hlen : b.depth ≤ fuel ∧ (path ++ ⟨.right, c, x, a⟩ :: ctx).length < fuel := by
    have hwhole : (ColorTree.node c a x b).plug ctx =
        (join .left c' nil y d).plug (path ++ ⟨.right, c, x, a⟩ :: ctx) := by
      rw [plug_append, ← hplug]
      rfl
    have hdeep := depth_le_plug (ColorTree.node c a x b) ctx
    have hdeep' := depth_le_plug (join .left c' nil y d) (path ++ ⟨.right, c, x, a⟩ :: ctx)
    rw [← hwhole] at hdeep'
    simp only [join, depth] at hdeep hdeep'
    omega
  obtain ⟨y', hy', hhead⟩ := descendLeft_depth hbt hr hlen.1
  obtain rfl : y = y' := by simpa [hbord] using hhead
  obtain ⟨hyp, hyc, -, hyr, -, -⟩ := treeAt_join.1 hfull.1
  have hyright : (m.node y).rbRight = d.top := hyr
  have hxpath : x ∉ ids path := by
    have hids := hfull.nodup.2
    rw [ids, List.flatMap_append, List.nodup_append] at hids
    exact fun hx ↦ hids.2.2 x hx x (by simp) rfl
  obtain ⟨hgone, hygone, hkeep⟩ := hfull.unlink
  have hplace : Focus (unlink m y d.top (above (path ++ ⟨.right, c, x, a⟩ :: ctx)))
      (.node c a x (d.plug path)) ctx := focus_cons.1 (focus_append.1 hgone)
  rw [plug_append] at hygone
  obtain ⟨m₂, hplaced, hfocus⟩ := hplace.takePlace ha hygone
  have hfocus' : Focus m₂ d (path ++ ⟨.right, c, y, a⟩ :: ctx) :=
    focus_append.2 (focus_cons.2 hfocus)
  have hlen' : (path ++ ⟨.right, c, y, a⟩ :: ctx).length < fuel := by simpa using hlen.2
  obtain ⟨hred, hblack⟩ := hfitsFull.unlink
  obtain ⟨m', r, hrun, hr', hfits', hord⟩ := rebalance_gone (c := c') hlen' hfocus'
    ⟨fun hc ↦ (hred hc).rename y, fun hc ↦ (hblack hc).rename y⟩
  refine ⟨m', r, ?_, hr', hfits', ?_⟩
  · have hl' : (m.node x).rbLeft = some left := hleft.trans hl
    have hright' : (m.node x).rbRight = some right := hright.trans hr
    simp only [rbErase, hl', hright', hy', bind, Except.bind, hyright, hyp, hyc, hkeep, hplaced,
      above_renamed hxpath]
    exact hrun
  · have hpath : (d.plug path).inorder = d.inorder ++ after path := by
      rw [plug_inorder, hbefore, List.nil_append]
    rw [hord, plug_append, plug, plug_inorder, hbord]
    simp [attach, join, inorder, hpath]

theorem rbErase_spec {fuel : ℕ} (hfuel : ((ColorTree.node c a x b).plug ctx).depth ≤ fuel)
    (h : Focus m (.node c a x b) ctx) (hfits : Fits (.node c a x b) ctx) :
    ∃ m' r, rbErase fuel m x = .ok m' ∧ Focus m' r [] ∧ Fits r [] ∧
      r.inorder = before ctx ++ (a.inorder ++ b.inorder) ++ after ctx := by
  obtain ⟨hp, hc, hleft, hright, -, -⟩ := h.1
  have hl : (m.node x).rbLeft = a.top := hleft
  have hr : (m.node x).rbRight = b.top := hright
  have hctx : ctx.length < fuel := by
    have hdeep := depth_le_plug (ColorTree.node c a x b) ctx
    rw [depth] at hdeep
    omega
  cases ha : a.top with
  | none =>
      cases a with
      | node => cases ha
      | nil =>
          have hone : Focus m (join .left c nil x b) ctx := h
          obtain ⟨m', r, hrun, hfocus, hfits', hord⟩ :=
            rebalance_gone hctx hone.unlink.1 (Fits.unlink (s := .left) hfits)
          refine ⟨m', r, ?_, hfocus, hfits', ?_⟩
          · simp only [rbErase, rbErase.one, hl, ha, hr, hp, hc]
            exact hrun
          · simpa [inorder] using hord.trans (plug_inorder b ctx)
  | some left =>
      cases hb : b.top with
      | none =>
          cases b with
          | node => cases hb
          | nil =>
              have hone : Focus m (join .right c nil x a) ctx := h
              obtain ⟨m', r, hrun, hfocus, hfits', hord⟩ :=
                rebalance_gone hctx hone.unlink.1 (Fits.unlink (s := .right) hfits)
              refine ⟨m', r, ?_, hfocus, hfits', ?_⟩
              · simp only [rbErase, rbErase.one, hl, ha, hr, hb, hp, hc]
                rw [ha] at hrun
                exact hrun
              · simpa [inorder] using hord.trans (plug_inorder a ctx)
      | some right =>
          have hane : a.top ≠ none := Option.ne_none_iff_exists'.2 ⟨left, ha⟩
          have hbne : b.top ≠ none := Option.ne_none_iff_exists'.2 ⟨right, hb⟩
          exact rbErase_two hfuel h hfits hane hbne

/-- Erasing any node of a balanced tree with `n` nodes takes it out of the
order and leaves a balanced tree, in at most `2 * log n` passes of a loop. -/
theorem rbErase_balanced {fuel : ℕ} (htree : m.root = t.top ∧ TreeAt m none t ∧ t.inorder.Nodup)
    (hbal : t.Balanced) (hblack : t.color = .black) (hx : x ∈ t.inorder)
    (hfuel : 2 * Nat.log 2 (t.inorder.length + 1) ≤ fuel) :
    ∃ m' r, rbErase fuel m x = .ok m' ∧
      (m'.root = r.top ∧ TreeAt m' none r ∧ r.inorder = t.inorder.erase x) ∧
      r.Balanced ∧ r.color = .black := by
  have hdepth := (hbal.depth_le_log hblack).trans hfuel
  obtain ⟨c, a, b, ctx, hplug⟩ := exists_plug [] hx
  rw [plug] at hplug
  subst hplug
  have hfocus : Focus m (.node c a x b) ctx := focus_plug.2 ⟨htree.2.1, htree.1, htree.2.2⟩
  obtain ⟨m', r, hm', ⟨hr, hroot, -⟩, hfits, hord⟩ := rbErase_spec hdepth hfocus
    (fits_plug.2 (fits_nil.2 ⟨hbal, hblack⟩))
  obtain ⟨hbal', hblack'⟩ := fits_nil.1 hfits
  refine ⟨m', r, hm', ⟨hroot, hr, ?_⟩, hbal', hblack'⟩
  have hwhole : ((ColorTree.node c a x b).plug ctx).inorder =
      (before ctx ++ a.inorder) ++ x :: (b.inorder ++ after ctx) := by
    rw [plug_inorder]
    simp [inorder]
  have hn := htree.2.2
  rw [hwhole] at hn
  have hxl : x ∉ before ctx ++ a.inorder := by
    have hx' := (List.nodup_cons.1 (List.nodup_middle.1 hn)).1
    exact fun hl ↦ hx' (List.mem_append_left _ hl)
  rw [hord, hwhole, List.erase_append_right _ hxl, List.erase_cons_head]
  simp

end Links

/-- Four nodes, of which only `4` is red. -/
def fourNodes : RbTree ℕ :=
  ⟨fun x ↦ if x = 2 then ⟨none, some 3, some 1, .black⟩
    else if x = 3 then ⟨some 2, some 4, none, .black⟩
    else if x = 4 then ⟨some 3, none, none, .red⟩ else ⟨some 2, none, none, .black⟩, some 2⟩

/-- The black leaf `1` goes, and its side gets a black node back by a turn at
the root. -/
theorem rbErase_balanced_leaf :
    ∃ m' r, rbErase 4 fourNodes 1 = .ok m' ∧ m'.root = some 3 ∧ r.top = some 3 ∧
      TreeAt m' none r ∧ r.inorder = [2, 3, 4] ∧ r.Balanced := by
  obtain ⟨m', r, hm', ⟨hroot, htree, hord⟩, hbal, -⟩ := rbErase_balanced
    (t := .node .black (.node .black .nil 1 .nil) 2 (.node .black .nil 3 (.node .red .nil 4 .nil)))
    (x := 1) (m := fourNodes)
    ⟨rfl, by simp [TreeAt, RbNode.child, top, fourNodes], by decide⟩
    ⟨by simp [NoRedRed, color], 2, by simp [HasHeight]⟩ rfl (by simp [inorder])
    (show 2 * Nat.log 2 5 ≤ 4 by decide)
  have hturn : (rbErase 4 fourNodes 1).map RbTree.root = .ok (some 3) := by decide
  rw [hm'] at hturn
  have hthree : m'.root = some 3 := Except.ok.inj hturn
  exact ⟨m', r, hm', hthree, hroot.symm.trans hthree, htree, hord, hbal⟩

end Cocool.Rbtree
