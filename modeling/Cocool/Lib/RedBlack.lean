import Mathlib.Data.List.Perm.Basic
import Mathlib.Tactic.TypeStar

/-!
# Red-black trees and their contexts

A binary tree with coloured nodes, and the place of one of its subtrees as
the list of nodes above it, the nearest one first.  The two sides are a
parameter, so each fact about a rotation or a repainting is stated once for
both mirror images.
-/

namespace Lib

inductive Side
  | left
  | right
  deriving DecidableEq

namespace Side

def other : Side → Side
  | left => right
  | right => left

@[simp] theorem other_other (s : Side) : s.other.other = s := by cases s <;> rfl

@[simp] theorem other_ne (s : Side) : s.other ≠ s := by cases s <;> decide

@[simp] theorem ne_other (s : Side) : s ≠ s.other := s.other_ne.symm

theorem eq_other {s t : Side} (h : s ≠ t) : s = t.other := by
  cases s <;> cases t <;> first | rfl | exact absurd rfl h

end Side

inductive Color
  | red
  | black
  deriving DecidableEq

/-- What a node of this colour adds to the height. -/
def Color.weight : Color → ℕ
  | red => 0
  | black => 1

inductive ColorTree (α : Type*)
  | nil
  | node (c : Color) (l : ColorTree α) (x : α) (r : ColorTree α)

/-- A node of the path to a subtree, which hangs on its `side`. -/
structure Frame (α : Type*) where
  side : Side
  color : Color
  value : α
  sibling : ColorTree α

variable {α : Type*}

namespace ColorTree

def top : ColorTree α → Option α
  | nil => none
  | node _ _ x _ => some x

/-- The colour of the root, where the empty tree counts as black. -/
def color : ColorTree α → Color
  | nil => .black
  | node c _ _ _ => c

def paint (c : Color) : ColorTree α → ColorTree α
  | nil => nil
  | node _ l x r => node c l x r

def inorder : ColorTree α → List α
  | nil => []
  | node _ l x r => l.inorder ++ x :: r.inorder

/-- The node `x` with the subtree `a` on side `s` and `b` on the other one. -/
def join : Side → Color → ColorTree α → α → ColorTree α → ColorTree α
  | .left, c, a, x, b => node c a x b
  | .right, c, a, x, b => node c b x a

def attach (f : Frame α) (t : ColorTree α) : ColorTree α := join f.side f.color t f.value f.sibling

/-- The whole tree around `t`. -/
def plug (t : ColorTree α) : List (Frame α) → ColorTree α
  | [] => t
  | f :: ctx => plug (attach f t) ctx

/-- Every path from the root to an empty subtree has `h` black nodes. -/
def HasHeight : ColorTree α → ℕ → Prop
  | nil, h => h = 0
  | node .red l _ r, h => l.HasHeight h ∧ r.HasHeight h
  | node .black _ _ _, 0 => False
  | node .black l _ r, h + 1 => l.HasHeight h ∧ r.HasHeight h

/-- No red node has a red child. -/
def NoRedRed : ColorTree α → Prop
  | nil => True
  | node c l _ r => (c = .red → l.color = .black ∧ r.color = .black) ∧ l.NoRedRed ∧ r.NoRedRed

def Balanced (t : ColorTree α) : Prop := t.NoRedRed ∧ ∃ h, t.HasHeight h

section

variable (s : Side) (c c' : Color) (a b d : ColorTree α) (x y : α)

@[simp] theorem top_join : (join s c a x b).top = some x := by cases s <;> rfl

@[simp] theorem color_join : (join s c a x b).color = c := by cases s <;> rfl

@[simp] theorem paint_join : (join s c a x b).paint c' = join s c' a x b := by cases s <;> rfl

theorem join_other : join s.other c a x b = join s c b x a := by cases s <;> rfl

@[simp] theorem top_paint (t : ColorTree α) : (t.paint c).top = t.top := by cases t <;> rfl

@[simp] theorem inorder_paint (t : ColorTree α) : (t.paint c).inorder = t.inorder := by
  cases t <;> rfl

/-- Rotating a node down to side `s` keeps the order. -/
theorem inorder_rotate :
    (join s c a x (join s c' b y d)).inorder = (join s c' (join s c a x b) y d).inorder := by
  cases s <;> simp [join, inorder]

theorem inorder_join_perm : (join s c a x b).inorder.Perm (x :: (a.inorder ++ b.inorder)) := by
  cases s
  · exact List.perm_middle
  · exact List.perm_middle.trans (List.perm_append_comm.cons x)

theorem hasHeight_join {h : ℕ} :
    (join s c a x b).HasHeight h ↔ ∃ k, h = k + c.weight ∧ a.HasHeight k ∧ b.HasHeight k := by
  cases c
  · cases s <;> simp [join, HasHeight, Color.weight, and_comm]
  · cases h <;> cases s <;> simp [join, HasHeight, Color.weight, and_comm]

theorem noRedRed_join :
    (join s c a x b).NoRedRed ↔
      (c = .red → a.color = .black ∧ b.color = .black) ∧ a.NoRedRed ∧ b.NoRedRed := by
  cases s
  · exact .rfl
  · rw [join, NoRedRed, and_comm (a := a.NoRedRed), and_comm (a := a.color = .black)]

end

theorem exists_join {t : ColorTree α} {x : α} (s : Side) (h : t.top = some x) :
    ∃ a b, t = join s t.color a x b := by
  cases t with
  | nil => cases h
  | node c l y r =>
      obtain rfl : y = x := Option.some.inj h
      cases s with
      | left => exact ⟨l, r, rfl⟩
      | right => exact ⟨r, l, rfl⟩

theorem NoRedRed.paint_black {t : ColorTree α} (h : t.NoRedRed) : (t.paint .black).NoRedRed := by
  cases t with
  | nil => trivial
  | node c l x r => exact ⟨nofun, h.2⟩

theorem HasHeight.paint_black {t : ColorTree α} {h : ℕ} (ht : t.HasHeight h) (hc : t.color = .red) :
    (t.paint .black).HasHeight (h + 1) := by
  cases t with
  | nil => cases hc
  | node c l x r =>
      obtain rfl : c = .red := hc
      exact ht

theorem Balanced.paint_black {t : ColorTree α} (h : t.Balanced) : (t.paint .black).Balanced := by
  obtain ⟨hred, n, hn⟩ := h
  refine ⟨hred.paint_black, ?_⟩
  cases hc : t.color with
  | red => exact ⟨n + 1, hn.paint_black hc⟩
  | black =>
      refine ⟨n, ?_⟩
      cases t with
      | nil => exact hn
      | node c l x r => exact (show c = .black from hc) ▸ hn

end ColorTree

namespace Context

open ColorTree

/-- The nodes of a context: the path and everything that hangs off it. -/
def ids (ctx : List (Frame α)) : List α := ctx.flatMap fun f ↦ f.value :: f.sibling.inorder

/-- What comes before the place in order. -/
def before : List (Frame α) → List α
  | [] => []
  | f :: ctx =>
      match f.side with
      | .left => before ctx
      | .right => before ctx ++ f.sibling.inorder ++ [f.value]

/-- What comes after the place in order. -/
def after : List (Frame α) → List α
  | [] => []
  | f :: ctx =>
      match f.side with
      | .left => f.value :: f.sibling.inorder ++ after ctx
      | .right => after ctx

/-- The node right above the place. -/
def above (ctx : List (Frame α)) : Option α := ctx.head?.map Frame.value

@[simp] theorem above_nil : above ([] : List (Frame α)) = none := rfl

@[simp] theorem above_cons (f : Frame α) (ctx : List (Frame α)) :
    above (f :: ctx) = some f.value := rfl

theorem plug_inorder (t : ColorTree α) (ctx : List (Frame α)) :
    (t.plug ctx).inorder = before ctx ++ t.inorder ++ after ctx := by
  induction ctx generalizing t with
  | nil => simp [plug, before, after]
  | cons f ctx ih =>
      rw [plug, ih, before, after, attach]
      cases f.side <;> simp [join, inorder]

theorem plug_perm (t : ColorTree α) (ctx : List (Frame α)) :
    (t.plug ctx).inorder.Perm (t.inorder ++ ids ctx) := by
  induction ctx generalizing t with
  | nil => simp [plug, ids]
  | cons f ctx ih =>
      calc (t.plug (f :: ctx)).inorder
          _ |>.Perm ((attach f t).inorder ++ ids ctx) := ih (attach f t)
          _ |>.Perm (f.value :: (t.inorder ++ f.sibling.inorder) ++ ids ctx) :=
            (inorder_join_perm ..).append_right _
          _ |>.Perm (t.inorder ++ ids (f :: ctx)) := by
            simpa [ids] using (List.perm_middle (a := f.value)).symm

theorem plug_inorder_congr {t u : ColorTree α} (ctx : List (Frame α)) (h : t.inorder = u.inorder) :
    (t.plug ctx).inorder = (u.plug ctx).inorder := by
  rw [plug_inorder, plug_inorder, h]

/-- Every node of a tree is the root of a subtree in its context. -/
theorem exists_plug {t : ColorTree α} {x : α} (ctx : List (Frame α)) (hx : x ∈ t.inorder) :
    ∃ c l r ctx', (node c l x r).plug ctx' = t.plug ctx := by
  induction t generalizing ctx with
  | nil => cases hx
  | node c l y r ihl ihr =>
      rcases List.mem_append.mp hx with h | h
      · exact ihl (⟨.left, c, y, r⟩ :: ctx) h
      · rcases List.mem_cons.mp h with rfl | h
        · exact ⟨c, l, r, ctx, rfl⟩
        · exact ihr (⟨.right, c, y, l⟩ :: ctx) h

section

variable {t a b : ColorTree α} {f g : Frame α} {ctx : List (Frame α)} {s : Side} {x y : α}

def BlackAbove : List (Frame α) → Prop
  | [] => False
  | f :: _ => f.color = .black

/-- The rest of a balanced tree around a subtree of height `h`. -/
def Around : List (Frame α) → ℕ → Prop
  | [], _ => True
  | f :: ctx, h =>
      f.sibling.HasHeight h ∧ f.sibling.NoRedRed ∧
        (f.color = .red → f.sibling.color = .black ∧ BlackAbove ctx) ∧
        Around ctx (h + f.color.weight)

/-- `t` in a balanced tree with a black root. -/
def Fits (t : ColorTree α) (ctx : List (Frame α)) : Prop :=
  ∃ h, t.HasHeight h ∧ t.NoRedRed ∧ (t.color = .red → BlackAbove ctx) ∧ Around ctx h

/-- The root of `t` is red, and nothing else is wrong than that the node
above it may be red as well. -/
def Pending (t : ColorTree α) (ctx : List (Frame α)) : Prop :=
  t.color = .red ∧ ∃ h, t.HasHeight h ∧ t.NoRedRed ∧ Around ctx h

theorem fits_cons : Fits t (f :: ctx) ↔ Fits (attach f t) ctx := by
  simp only [Fits, Around, attach, hasHeight_join, noRedRed_join, color_join, BlackAbove]
  constructor
  · rintro ⟨h, ht, htred, habove, hs, hsred, hf, harnd⟩
    refine ⟨_, ⟨h, rfl, ht, hs⟩, ⟨fun hred ↦ ⟨?_, (hf hred).1⟩, htred, hsred⟩,
      fun hred ↦ (hf hred).2, harnd⟩
    -- a red root of `t` would need the red frame to be black
    cases hc : t.color with
    | black => rfl
    | red => exact absurd (hred.symm.trans (habove hc)) nofun
  · rintro ⟨_, ⟨h, rfl, ht, hs⟩, ⟨hred, htred, hsred⟩, habove, harnd⟩
    refine ⟨h, ht, htred, fun hc ↦ ?_, hs, hsred, fun hf ↦ ⟨(hred hf).2, habove hf⟩, harnd⟩
    cases hf : f.color with
    | black => rfl
    | red => exact absurd (hc.symm.trans (hred hf).1) nofun

theorem fits_plug : Fits t ctx ↔ Fits (t.plug ctx) [] := by
  induction ctx generalizing t with
  | nil => rfl
  | cons f ctx ih => exact fits_cons.trans ih

theorem fits_nil : Fits t [] ↔ t.Balanced ∧ t.color = .black := by
  constructor
  · rintro ⟨h, ht, htred, habove, -⟩
    refine ⟨⟨htred, h, ht⟩, ?_⟩
    cases hc : t.color with
    | black => rfl
    | red => exact (habove hc).elim
  · rintro ⟨⟨htred, h, ht⟩, hc⟩
    exact ⟨h, ht, htred, fun hred ↦ absurd (hred.symm.trans hc) nofun, trivial⟩

/-- The loop may stop at the root or below a black node. -/
theorem Pending.balanced (h : Pending t ctx) (hstop : ∀ f ∈ ctx.head?, f.color = .black) :
    (t.plug ctx).Balanced := by
  obtain ⟨_, n, ht, htred, harnd⟩ := h
  cases ctx with
  | nil => exact ⟨htred, n, ht⟩
  | cons f ctx =>
      have hfits : Fits t (f :: ctx) := ⟨n, ht, htred, fun _ ↦ hstop f rfl, harnd⟩
      exact (fits_nil.1 (fits_plug.1 hfits)).1

/-- A red node above is never the outermost one. -/
theorem Pending.exists_black (h : Pending t (f :: ctx)) (hf : f.color = .red) :
    ∃ g rest, ctx = g :: rest ∧ g.color = .black := by
  obtain ⟨-, n, -, -, -, -, habove, -⟩ := h
  cases ctx with
  | nil => exact (habove hf).2.elim
  | cons g rest => exact ⟨g, rest, rfl, (habove hf).2⟩

/-- With a red uncle the colours change and the problem moves up two nodes. -/
theorem Pending.recolor (h : Pending t (f :: g :: ctx)) (hf : f.color = .red)
    (hu : g.sibling.color = .red) :
    Pending (join g.side .red (join f.side .black t f.value f.sibling) g.value
      (g.sibling.paint .black)) ctx := by
  obtain ⟨-, n, ht, htred, hs, hsred, habove, hgs, hgsred, -, harnd⟩ := h
  have hg : g.color = .black := (habove hf).2
  rw [hf] at hgs harnd
  rw [hg] at harnd
  refine ⟨color_join .., n + 1, ?_, ?_, harnd⟩
  · refine (hasHeight_join ..).2 ⟨n + 1, rfl, ?_, hgs.paint_black hu⟩
    exact (hasHeight_join ..).2 ⟨n, rfl, ht, hs⟩
  · refine (noRedRed_join ..).2 ⟨fun _ ↦ ⟨color_join .., ?_⟩, ?_, hgsred.paint_black⟩
    · cases hsib : g.sibling with
      | nil => rfl
      | node c l x r => rfl
    · exact (noRedRed_join ..).2 ⟨nofun, htred, hsred⟩

/-- The two red nodes stand on different sides: the upper one turns below
the lower one. -/
theorem Pending.turnInner
    (h : Pending (join s .red a x b) (⟨s.other, .red, y, t⟩ :: ctx)) :
    Pending (join s .red t y a) (⟨s, .red, x, b⟩ :: ctx) := by
  obtain ⟨-, n, hab, habred, ht, htred, habove, harnd⟩ := h
  obtain ⟨_, rfl, ha, hb⟩ := (hasHeight_join ..).1 hab
  obtain ⟨hblack, hared, hbred⟩ := (noRedRed_join ..).1 habred
  obtain ⟨hac, hbc⟩ := hblack rfl
  obtain ⟨htc, hctx⟩ := habove rfl
  refine ⟨color_join .., _, (hasHeight_join ..).2 ⟨_, rfl, ht, ha⟩, ?_, hb, hbred, ?_, harnd⟩
  · exact (noRedRed_join ..).2 ⟨fun _ ↦ ⟨htc, hac⟩, htred, hared⟩
  · exact fun _ ↦ ⟨hbc, hctx⟩

/-- The two red nodes stand on the same side: the black node above them
turns below the upper one, which takes its colour. -/
theorem Pending.turnOuter
    (h : Pending t (⟨s, .red, x, a⟩ :: g :: ctx)) (hu : g.sibling.color = .black) :
    Pending t (⟨s, .black, x, join s .red a g.value g.sibling⟩ :: ctx) := by
  obtain ⟨hc, n, ht, htred, ha, hared, habove, hgs, hgsred, -, harnd⟩ := h
  obtain ⟨hac, hg⟩ := habove rfl
  rw [show g.color = .black from hg] at harnd
  refine ⟨hc, n, ht, htred, (hasHeight_join ..).2 ⟨n, rfl, ha, hgs⟩, ?_, nofun, harnd⟩
  exact (noRedRed_join ..).2 ⟨fun _ ↦ ⟨hac, hu⟩, hared, hgsred⟩

end

end Context

end Lib
