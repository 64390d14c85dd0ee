import Cocool.Rbtree.PageCache

/-!
# Destroying a tree

`rb_destroy` gives every node back to `free`, both subtrees before the node
itself.  Memory that was given back must not be looked at any more.
-/

namespace Cocool.Rbtree

open Lib

variable {ι : Type} [DecidableEq ι]

/-- `freed` is a look at a node after its `free`, or a second `free` of it,
and `deep` a recursion that goes too deep. -/
inductive DestroyFault
  | freed
  | deep
  deriving DecidableEq

/-- The nodes in memory, and those given back in the order of the calls. -/
structure Freeing (ι : Type) where
  node : ι → RbNode ι
  freed : List ι

namespace Freeing

def read (m : Freeing ι) (x : ι) : Except DestroyFault (RbNode ι) :=
  if x ∈ m.freed then .error .freed else .ok (m.node x)

def free (m : Freeing ι) (x : ι) : Except DestroyFault (Freeing ι) :=
  if x ∈ m.freed then .error .freed else .ok { m with freed := m.freed ++ [x] }

end Freeing

open Lib.ColorTree Lib.Context

variable {m : RbTree ι} {p : Option ι} {t l r : ColorTree ι} {x : ι} {freed : List ι} {depth : ℕ}

end Cocool.Rbtree
