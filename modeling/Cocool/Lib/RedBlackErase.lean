import Cocool.Lib.RedBlack
import Mathlib.Data.List.Nodup

/-!
# Taking a node out of a red-black tree

A black node that is taken out leaves a subtree with one black node too few
on its paths.  The steps that repair it either move that subtree up or end
with a balanced tree, and each of them is stated for both mirror images.
-/

namespace Lib

namespace ColorTree

variable {α : Type*} {t : ColorTree α} {s : Side} {c : Color} {h : ℕ}

theorem paint_color (h : t.color = c) : t.paint c = t := by
  cases t with
  | nil => rfl
  | node c' l x r => exact congrArg (fun c ↦ node c l x r) h.symm

theorem color_paint_black (t : ColorTree α) : (t.paint .black).color = .black := by
  cases t <;> rfl

theorem color_of_top (h : t.top = none) : t.color = .black := by
  cases t with
  | nil => rfl
  | node => cases h

/-- A tree with a black node on its paths has a root. -/
theorem HasHeight.exists_join (ht : t.HasHeight (h + 1)) (s : Side) :
    ∃ a x b, t = join s t.color a x b := by
  cases t with
  | nil => cases ht
  | node c l y r =>
      obtain ⟨a, b, hab⟩ := ColorTree.exists_join (t := node c l y r) s rfl
      exact ⟨a, y, b, hab⟩

/-- A red node that has black nodes under it has two children. -/
theorem HasHeight.exists_children {a b : ColorTree α} {x : α}
    (ht : (join s .red a x b).HasHeight (h + 1)) : a.top ≠ none ∧ b.top ≠ none := by
  obtain ⟨k, hk, ha, hb⟩ := (hasHeight_join ..).1 ht
  obtain rfl : h + 1 = k := hk
  obtain ⟨_, _, _, ha'⟩ := ha.exists_join s
  obtain ⟨_, _, _, hb'⟩ := hb.exists_join s
  rw [ha', hb', top_join, top_join]
  exact ⟨nofun, nofun⟩

end ColorTree

namespace Context

open ColorTree

variable {α : Type*} {t a b d : ColorTree α} {f : Frame α} {ctx path : List (Frame α)}
  {s : Side} {c : Color} {x y p o : α}

theorem plug_append (t : ColorTree α) (path ctx : List (Frame α)) :
    t.plug (path ++ ctx) = (t.plug path).plug ctx := by
  induction path generalizing t with
  | nil => rfl
  | cons f path ih => exact ih (attach f t)

/-- Below a node of the path, that or one further up is the root. -/
theorem exists_plug_top (t : ColorTree α) (f : Frame α) (ctx : List (Frame α)) :
    ∃ z ∈ ids (f :: ctx), (t.plug (f :: ctx)).top = some z := by
  induction ctx generalizing t f with
  | nil => exact ⟨f.value, by simp [ids], top_join ..⟩
  | cons g ctx ih =>
      obtain ⟨z, hz, htop⟩ := ih (attach f t) g
      exact ⟨z, List.mem_append_right _ hz, htop⟩

theorem fits_append : Fits t (path ++ ctx) ↔ Fits (t.plug path) ctx := by
  rw [fits_plug, plug_append, ← fits_plug]

/-- The first node of a tree stands at the end of a path to the left. -/
theorem exists_leftmost (l : ColorTree α) (c : Color) (x : α) (r : ColorTree α) :
    ∃ c' y d path, (node c' nil y d).plug path = node c l x r ∧ before path = [] := by
  induction l generalizing c x r with
  | nil => exact ⟨c, x, r, [], rfl, rfl⟩
  | node c₁ l₁ x₁ r₁ ih _ =>
      obtain ⟨c', y, d, path, hplug, hbefore⟩ := ih c₁ x₁ r₁
      refine ⟨c', y, d, path ++ [⟨.left, c, x, r⟩], ?_, ?_⟩
      · rw [plug_append, hplug]
        rfl
      · clear hplug ih
        induction path with
        | nil => rfl
        | cons g path ihp =>
            rw [List.cons_append, before]
            rw [before] at hbefore
            cases hg : g.side with
            | left =>
                simp only [hg] at hbefore
                exact ihp hbefore
            | right => simp [hg] at hbefore

/-- Balance does not look at the values. -/
theorem around_rename {h : ℕ} :
    Around (path ++ ⟨s, c, x, a⟩ :: ctx) h → Around (path ++ ⟨s, c, y, a⟩ :: ctx) h := by
  induction path generalizing h with
  | nil => exact id
  | cons f path ih =>
      rintro ⟨hs, hsred, hf, harnd⟩
      refine ⟨hs, hsred, fun hred ↦ ⟨(hf hred).1, ?_⟩, ih harnd⟩
      cases path with
      | nil => exact (hf hred).2
      | cons g path => exact (hf hred).2

theorem blackAbove_rename :
    BlackAbove (path ++ ⟨s, c, x, a⟩ :: ctx) → BlackAbove (path ++ ⟨s, c, y, a⟩ :: ctx) := by
  cases path with
  | nil => exact id
  | cons f path => exact id

theorem Fits.rename (h : Fits t (path ++ ⟨s, c, x, a⟩ :: ctx)) (y : α) :
    Fits t (path ++ ⟨s, c, y, a⟩ :: ctx) := by
  obtain ⟨n, ht, hred, habove, harnd⟩ := h
  exact ⟨n, ht, hred, fun hc ↦ blackAbove_rename (habove hc), around_rename harnd⟩

/-- The paths through `t` have one black node too few, and the root of `t`
may be red below a red node. -/
def Short (t : ColorTree α) (ctx : List (Frame α)) : Prop :=
  ∃ h, t.HasHeight h ∧ (t.paint .black).NoRedRed ∧ Around ctx (h + 1)

theorem Short.rename (h : Short t (path ++ ⟨s, c, x, a⟩ :: ctx)) (y : α) :
    Short t (path ++ ⟨s, c, y, a⟩ :: ctx) := by
  obtain ⟨n, ht, hred, harnd⟩ := h
  exact ⟨n, ht, hred, around_rename harnd⟩

/-- A node with one child is taken out: red ones leave no trace. -/
theorem Fits.unlink (h : Fits (join s c nil x t) ctx) :
    (c = .red → Fits t ctx) ∧ (c = .black → Short t ctx) := by
  obtain ⟨_, hjoin, hred, -, harnd⟩ := h
  obtain ⟨n, rfl, -, ht⟩ := (hasHeight_join ..).1 hjoin
  obtain ⟨hblack, -, htred⟩ := (noRedRed_join ..).1 hred
  constructor
  · rintro rfl
    exact ⟨n, ht, htred, fun hc ↦ absurd (hc.symm.trans (hblack rfl).2) nofun, harnd⟩
  · rintro rfl
    exact ⟨n, ht, htred.paint_black, harnd⟩

/-- A red root takes the missing black node. -/
theorem Short.paint_red (h : Short t ctx) (hc : t.color = .red) : Fits (t.paint .black) ctx := by
  obtain ⟨n, ht, hred, harnd⟩ := h
  exact ⟨n + 1, ht.paint_black hc, hred, fun hb ↦ absurd (hb.symm.trans (color_paint_black t)) nofun,
    harnd⟩

/-- At the root of the whole tree nothing is too short. -/
theorem Short.paint_root (h : Short t []) : Fits (t.paint .black) [] := by
  cases hc : t.color with
  | red => exact h.paint_red hc
  | black =>
      obtain ⟨n, ht, hred, -⟩ := h
      rw [fits_nil, color_paint_black]
      exact ⟨⟨hred, n, (paint_color hc).symm ▸ ht⟩, rfl⟩

/-- There is a node on the other side. -/
theorem Short.exists_sibling (h : Short t (f :: ctx)) (s : Side) :
    ∃ a o b, f.sibling = join s f.sibling.color a o b := by
  obtain ⟨n, -, -, hs, -⟩ := h
  exact hs.exists_join s

/-- With a red sibling the node above turns below it, and the new sibling
is black. -/
theorem Short.turnRed (h : Short t (⟨s, c, p, join s .red a o b⟩ :: ctx)) :
    Short t (⟨s, .red, p, a⟩ :: ⟨s, .black, o, b⟩ :: ctx) ∧ c = .black ∧ a.color = .black ∧
      a.top ≠ none := by
  obtain ⟨n, ht, htred, hs, hsred, hc, harnd⟩ := h
  have hblack : c = .black := by
    cases c with
    | black => rfl
    | red => exact absurd ((color_join ..).symm.trans (hc rfl).1) nofun
  subst hblack
  obtain ⟨hkids, hared, hbred⟩ := (noRedRed_join ..).1 hsred
  obtain ⟨_, hn, ha, hb⟩ := (hasHeight_join ..).1 hs
  obtain rfl : n + 1 = _ := hn
  obtain ⟨hac, -⟩ := hkids rfl
  exact ⟨⟨n, ht, htred, ha, hared, fun _ ↦ ⟨hac, rfl⟩, hb, hbred, nofun, harnd⟩, rfl, hac,
    hs.exists_children.1⟩

/-- With two black nephews the sibling becomes red and the subtree above is
the one that is too short. -/
theorem Short.moveUp (h : Short t (⟨s, c, p, join s .black a o b⟩ :: ctx))
    (ht : t.color = .black) (ha : a.color = .black) (hb : b.color = .black) :
    Short (join s c t p (join s .red a o b)) ctx := by
  obtain ⟨n, hn, htred, hs, hsred, -, harnd⟩ := h
  obtain ⟨_, hk, hna, hnb⟩ := (hasHeight_join ..).1 hs
  obtain rfl : n = _ := Nat.succ.inj hk
  obtain ⟨-, hared, hbred⟩ := (noRedRed_join ..).1 hsred
  rw [paint_color ht] at htred
  refine ⟨n + c.weight, ?_, ?_, by rwa [Nat.add_right_comm]⟩
  · exact (hasHeight_join ..).2 ⟨n, rfl, hn, (hasHeight_join ..).2 ⟨n, rfl, hna, hnb⟩⟩
  · rw [paint_join]
    refine (noRedRed_join ..).2 ⟨nofun, htred, ?_⟩
    exact (noRedRed_join ..).2 ⟨fun _ ↦ ⟨ha, hb⟩, hared, hbred⟩

/-- The red inner nephew turns above the sibling, which takes its colour. -/
theorem Short.turnInner
    (h : Short t (⟨s, c, p, join s .black (join s .red a x b) o d⟩ :: ctx))
    (hd : d.color = .black) :
    Short t (⟨s, c, p, join s .black a x (join s .red b o d)⟩ :: ctx) := by
  obtain ⟨n, hn, htred, hs, hsred, hc, harnd⟩ := h
  obtain ⟨_, hk, hab, hnd⟩ := (hasHeight_join ..).1 hs
  obtain rfl : n = _ := Nat.succ.inj hk
  obtain ⟨_, rfl, hna, hnb⟩ := (hasHeight_join ..).1 hab
  obtain ⟨-, habred, hdred⟩ := (noRedRed_join ..).1 hsred
  obtain ⟨hkids, hared, hbred⟩ := (noRedRed_join ..).1 habred
  refine ⟨_, hn, htred, ?_, ?_, fun hred ↦ ⟨color_join .., (hc hred).2⟩, harnd⟩
  · exact (hasHeight_join ..).2 ⟨_, rfl, hna, (hasHeight_join ..).2 ⟨_, rfl, hnb, hnd⟩⟩
  · refine (noRedRed_join ..).2 ⟨nofun, hared, ?_⟩
    exact (noRedRed_join ..).2 ⟨fun _ ↦ ⟨(hkids rfl).2, hd⟩, hbred, hdred⟩

/-- The red outer nephew becomes black and the node above turns below the
sibling, which takes its colour: the tree is balanced. -/
theorem Short.turnOuter (h : Short t (⟨s, c, p, join s .black a o b⟩ :: ctx))
    (ht : t.color = .black) (hb : b.color = .red) :
    Fits (join s c (join s .black t p a) o (b.paint .black)) ctx := by
  obtain ⟨n, hn, htred, hs, hsred, hc, harnd⟩ := h
  obtain ⟨_, hk, hna, hnb⟩ := (hasHeight_join ..).1 hs
  obtain rfl : n = _ := Nat.succ.inj hk
  obtain ⟨-, hared, hbred⟩ := (noRedRed_join ..).1 hsred
  rw [paint_color ht] at htred
  refine ⟨n + 1 + c.weight, ?_, ?_, fun hred ↦ ?_, harnd⟩
  · refine (hasHeight_join ..).2 ⟨n + 1, rfl, ?_, hnb.paint_black hb⟩
    exact (hasHeight_join ..).2 ⟨n, rfl, hn, hna⟩
  · refine (noRedRed_join ..).2
      ⟨fun _ ↦ ⟨color_join .., color_paint_black b⟩, ?_, hbred.paint_black⟩
    exact (noRedRed_join ..).2 ⟨nofun, htred, hared⟩
  · exact (hc ((color_join ..).symm.trans hred)).2

end Context

end Lib
