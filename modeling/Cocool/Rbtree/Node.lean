import Cocool.Lib.RedBlack
import Mathlib.Logic.Function.Basic

/-!
# The red-black tree of co_rbtree.c

The nodes in memory with their links, and the functions that rotate,
rebalance and walk.  Each pair of mirrored functions or branches is one
definition with the side as a parameter.
-/

namespace Cocool.Rbtree

open Lib

/-- `rb_node_t`. -/
structure RbNode (ι : Type) where
  rbParent : Option ι
  rbRight : Option ι
  rbLeft : Option ι
  rbColor : Color

namespace RbNode

variable {ι : Type}

def child (n : RbNode ι) : Side → Option ι
  | .left => n.rbLeft
  | .right => n.rbRight

def setChild (n : RbNode ι) (s : Side) (q : Option ι) : RbNode ι :=
  match s with
  | .left => { n with rbLeft := q }
  | .right => { n with rbRight := q }

end RbNode

/-- The nodes in memory and the pointer behind `root`. -/
structure RbTree (ι : Type) where
  node : ι → RbNode ι
  root : Option ι

/-- `null` is a NULL pointer followed, `fuel` a loop that has not ended. -/
inductive Fault
  | null
  | fuel
  deriving DecidableEq

variable {ι : Type} [DecidableEq ι]

/-- A `rb_node_t **`: the root pointer or a child pointer of a node. -/
inductive Link (ι : Type)
  | root
  | child (s : Side) (x : ι)
  deriving DecidableEq

namespace RbTree

def setParent (m : RbTree ι) (x : ι) (q : Option ι) : RbTree ι :=
  { m with node := Function.update m.node x { m.node x with rbParent := q } }

def setChild (m : RbTree ι) (s : Side) (x : ι) (q : Option ι) : RbTree ι :=
  { m with node := Function.update m.node x ((m.node x).setChild s q) }

def setColor (m : RbTree ι) (x : ι) (c : Color) : RbTree ι :=
  { m with node := Function.update m.node x { m.node x with rbColor := c } }

/-- `if (q) q->rb_parent = x`. -/
def reparent (m : RbTree ι) (q : Option ι) (x : ι) : RbTree ι :=
  match q with
  | none => m
  | some y => m.setParent y (some x)

def load (m : RbTree ι) : Link ι → Option ι
  | .root => m.root
  | .child s x => (m.node x).child s

def store (m : RbTree ι) (p : Link ι) (q : Option ι) : RbTree ι :=
  match p with
  | .root => { m with root := q }
  | .child s x => m.setChild s x q

end RbTree

/-- The rotation that brings `node` down to side `s`. -/
def rotate (s : Side) (m : RbTree ι) (node : ι) : Except Fault (RbTree ι) :=
  match (m.node node).child s.other with
  | none => .error .null
  | some up =>
      let inner := (m.node up).child s
      let m := m.setChild s.other node inner
      let m := m.reparent inner node
      let m := m.setChild s up (some node)
      let parent := (m.node node).rbParent
      let m := m.setParent up parent
      let m :=
        match parent with
        | none => m.store .root (some up)
        | some p =>
            if (m.node p).child s = some node then m.setChild s p (some up)
            else m.setChild s.other p (some up)
      .ok (m.setParent node (some up))

def rbRotateLeft (m : RbTree ι) (node : ι) : Except Fault (RbTree ι) := rotate .left m node

def rbRotateRight (m : RbTree ι) (node : ι) : Except Fault (RbTree ι) := rotate .right m node

/-- `if (parent->rb_right == node)` with the rotation and the exchange of the
two names under it, for a parent on the left side, and its mirror image. -/
def turnInner (s : Side) (m : RbTree ι) (node parent : ι) :
    Except Fault (RbTree ι × ι × ι) :=
  if (m.node parent).child s.other = some node then
    (rotate s m parent).map fun m ↦ (m, parent, node)
  else .ok (m, node, parent)

/-- One pass of the loop below a red parent on side `s` of `gparent`: the
tree and the node the loop looks at next. -/
def rebalancePass (s : Side) (m : RbTree ι) (node parent gparent : ι) :
    Except Fault (RbTree ι × ι) :=
  match (m.node gparent).child s.other with
  | some uncle =>
      if (m.node uncle).rbColor = .red then
        .ok (((m.setColor uncle .black).setColor parent .black).setColor gparent .red, gparent)
      else turn
  | none => turn
where
  turn : Except Fault (RbTree ι × ι) := do
    let (m, node, parent) ← turnInner s m node parent
    let m := (m.setColor parent .black).setColor gparent .red
    let m ← rotate s.other m gparent
    return (m, node)

/-- The `while` loop of `rb_rebalance`. -/
def rebalanceLoop : ℕ → RbTree ι → ι → Except Fault (RbTree ι)
  | 0, _, _ => .error .fuel
  | fuel + 1, m, node =>
      match (m.node node).rbParent with
      | none => .ok m
      | some parent =>
          if (m.node parent).rbColor = .red then
            match (m.node parent).rbParent with
            | none => .error .null
            | some gparent => do
                let s := if (m.node gparent).rbLeft = some parent then Side.left else Side.right
                let (m, node) ← rebalancePass s m node parent gparent
                rebalanceLoop fuel m node
          else .ok m

def rbRebalance (fuel : ℕ) (m : RbTree ι) (node : ι) : Except Fault (RbTree ι) := do
  let m ← rebalanceLoop fuel (m.setColor node .red) node
  match m.root with
  | none => .error .null
  | some r => return m.setColor r .black

/-- `rb_traverse_t`. -/
structure RbTraverse (ι : Type) where
  node : Option ι

omit [DecidableEq ι] in
/-- `while (node->rb_left) node = node->rb_left`. -/
def descendLeft (m : RbTree ι) : ℕ → ι → Except Fault ι
  | 0, _ => .error .fuel
  | fuel + 1, node =>
      match (m.node node).rbLeft with
      | none => .ok node
      | some q => descendLeft m fuel q

/-- `while ((q = p->rb_parent) != NULL && p != q->rb_left) p = q`. -/
def climb (m : RbTree ι) : ℕ → ι → Except Fault (Option ι)
  | 0, _ => .error .fuel
  | fuel + 1, p =>
      match (m.node p).rbParent with
      | none => .ok none
      | some q => if (m.node q).rbLeft = some p then .ok (some q) else climb m fuel q

omit [DecidableEq ι] in
def rbFirst (fuel : ℕ) (m : RbTree ι) (node : Option ι) (t : RbTraverse ι) :
    Except Fault (Option ι × RbTraverse ι) :=
  match node with
  | none => .ok (none, t)
  | some x => (descendLeft m fuel x).map fun y ↦ (some y, ⟨some y⟩)

def rbNext (fuel : ℕ) (m : RbTree ι) (t : RbTraverse ι) :
    Except Fault (Option ι × RbTraverse ι) :=
  match t.node with
  | none => .error .null
  | some p =>
      match (m.node p).rbRight with
      | none => (climb m fuel p).map fun q ↦ (q, ⟨q⟩)
      | some q => (descendLeft m fuel q).map fun q ↦ (some q, ⟨some q⟩)

end Cocool.Rbtree
