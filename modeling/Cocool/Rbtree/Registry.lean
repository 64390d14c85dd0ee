import Cocool.Lib.Runs
import Cocool.Rbtree.Rebalance
import Cocool.Rbtree.Traverse
import Mathlib.Data.Int.Order.Basic
import Mathlib.Data.List.TakeWhile
import Mathlib.Data.Nat.Notation

/-!
# The string registry of rbtree_test.c

`cocol_rbregister_string` looks for the key from the root down, links a new
node where the search ends and rebalances.  The address of a new node is
the number of nodes before it.
-/

namespace Cocool.Rbtree

open Lib Lib.ColorTree Lib.Context

/-- `sizeof(pstring->szData)`. -/
def dataSize : ℕ := 64

/-- The string in a buffer: what comes before the first NUL. -/
def text (src : List UInt8) : List UInt8 := src.takeWhile (· ≠ 0)

/-- The bytes `strncpy` writes: the string, cut off at `n`, and NULs. -/
def strncpy (src : List UInt8) (n : ℕ) : List UInt8 :=
  text (src.take n) ++ List.replicate (n - (text (src.take n)).length) 0

theorem text_length_le (src : List UInt8) : (text src).length ≤ src.length :=
  (List.takeWhile_prefix _).length_le

theorem strncpy_length (src : List UInt8) (n : ℕ) : (strncpy src n).length = n := by
  have htext := (text_length_le (src.take n)).trans (List.length_take_le n src)
  rw [strncpy, List.length_append, List.length_replicate]
  omega

/-- Of a buffer no longer than `n` the copy has the same string. -/
theorem text_strncpy {src : List UInt8} {n : ℕ} (h : src.length ≤ n) :
    text (strncpy src n) = text src := by
  have hzero (k : ℕ) : (List.replicate k (0 : UInt8)).takeWhile (· ≠ 0) = [] := by
    cases k <;> simp [List.replicate_succ]
  rw [strncpy, List.take_of_length_le h, text, text,
    List.takeWhile_append_of_pos fun _ ↦ List.mem_takeWhile_imp, hzero, List.append_nil]

/-- `STRING_STOR` without its `rbNode`, which is its first member and so has
the same address. -/
structure StringStor where
  szData : List UInt8
  inum : ℤ
  sized : szData.length = dataSize
  deriving DecidableEq

/-- What a new node is filled with. -/
def StringStor.copy (p : StringStor) : StringStor where
  szData := strncpy p.szData dataSize
  inum := p.inum
  sized := strncpy_length ..

theorem StringStor.text_copy (p : StringStor) : text p.copy.szData = text p.szData :=
  text_strncpy (Nat.le_of_eq p.sized)

/-- The nodes under `prbRoot`, the rest of each one, and how many there are. -/
structure Registry where
  tree : RbTree ℕ
  stor : ℕ → StringStor
  count : ℕ

/-- `prbRoot = NULL` before any allocation, with anything in memory. -/
def Registry.start (node : ℕ → RbNode ℕ) (stor : ℕ → StringStor) : Registry :=
  ⟨⟨node, none⟩, stor, 0⟩

/-- The `while` loop of `cocol_rbregister_string`: the values of `p` and
`entry` at its end, or nothing for the `return` inside of it. -/
def descend (r : Registry) (key : ℤ) :
    ℕ → Link ℕ → Option ℕ → Except Fault (Option (Link ℕ × Option ℕ))
  | 0, _, _ => .error .fuel
  | fuel + 1, p, entry =>
      match r.tree.load p with
      | none => .ok (some (p, entry))
      | some x =>
          if key < (r.stor x).inum then descend r key fuel (.child .left x) (some x)
          else if key > (r.stor x).inum then descend r key fuel (.child .right x) (some x)
          else .ok none

def cocolRbregisterString (r : Registry) (pstring : StringStor) :
    Except Fault (StringStor × Registry) := do
  match ← descend r pstring.inum (r.count + 1) .root none with
  | none => return (pstring, r)
  | some (p, entry) =>
      let pnode := r.count
      let m := r.tree.setParent pnode entry
      let m := m.setChild .right pnode none
      let m := m.setChild .left pnode none
      let stor := Function.update r.stor pnode pstring.copy
      let m := m.store p (some pnode)
      let m ← rbRebalance (r.count + 1) m pnode
      return (pstring, ⟨m, stor, r.count + 1⟩)

def registerStep (r : Registry) (pstring : StringStor) : Except Fault Registry :=
  (cocolRbregisterString r pstring).map Prod.snd

section

variable {r : Registry} {key : ℤ} {t : ColorTree ℕ} {ctx : List (Frame ℕ)} {fuel : ℕ}

/-- The search ends at a node with the key, or at a NULL pointer with the
smaller keys before it and the larger ones after it. -/
theorem descend_spec (hf : Focus r.tree t ctx)
    (hsorted : (t.inorder.map fun x ↦ (r.stor x).inum).Pairwise (· < ·))
    (hbefore : ∀ x ∈ before ctx, (r.stor x).inum < key)
    (hafter : ∀ x ∈ after ctx, key < (r.stor x).inum) (hfuel : t.inorder.length < fuel) :
    (descend r key fuel (linkTo ctx) (above ctx) = .ok none ∧
      ∃ x ∈ t.inorder, (r.stor x).inum = key) ∨
    ∃ ctx', descend r key fuel (linkTo ctx) (above ctx) = .ok (some (linkTo ctx', above ctx')) ∧
      nil.plug ctx' = t.plug ctx ∧ (∀ x ∈ before ctx', (r.stor x).inum < key) ∧
      ∀ x ∈ after ctx', key < (r.stor x).inum := by
  induction t generalizing ctx fuel with
  | nil =>
      obtain ⟨fuel, rfl⟩ : ∃ k, fuel = k + 1 := ⟨fuel - 1, by omega⟩
      refine .inr ⟨ctx, ?_, rfl, hbefore, hafter⟩
      simp only [descend, hf.2.1.load, Lib.ColorTree.top]
  | node c a x b iha ihb =>
      simp only [inorder, List.length_append, List.length_cons] at hfuel
      obtain ⟨k, rfl⟩ : ∃ k, fuel = k + 1 := ⟨fuel - 1, by omega⟩
      have hload : r.tree.load (linkTo ctx) = some x := hf.2.1.load
      simp only [inorder, List.map_append, List.map_cons, List.pairwise_append,
        List.pairwise_cons, List.mem_map, List.mem_cons] at hsorted
      obtain ⟨ha, ⟨hxb, hb⟩, hab⟩ := hsorted
      rcases lt_trichotomy key (r.stor x).inum with hlt | heq | hgt
      · have hleft : Focus r.tree a (⟨.left, c, x, b⟩ :: ctx) := focus_cons.2 hf
        have hafter' : ∀ z ∈ after (⟨.left, c, x, b⟩ :: ctx), key < (r.stor z).inum := by
          intro z hz
          simp only [after, List.cons_append, List.mem_cons, List.mem_append] at hz
          rcases hz with rfl | hz | hz
          · exact hlt
          · exact hlt.trans (hxb _ ⟨z, hz, rfl⟩)
          · exact hafter z hz
        rw [descend, hload]
        simp only [if_pos hlt]
        apply (iha hleft ha hbefore hafter' (by omega)).imp _ id
        rintro ⟨hdone, z, hz, hkey⟩
        exact ⟨hdone, z, by simp [inorder, hz], hkey⟩
      · refine .inl ⟨?_, x, by simp [inorder], heq.symm⟩
        simp [descend, hload, heq]
      · have hright : Focus r.tree b (⟨.right, c, x, a⟩ :: ctx) := focus_cons.2 hf
        have hbefore' : ∀ z ∈ before (⟨.right, c, x, a⟩ :: ctx), (r.stor z).inum < key := by
          intro z hz
          simp only [before, List.mem_append, List.mem_singleton] at hz
          rcases hz with (hz | hz) | rfl
          · exact hbefore z hz
          · exact (hab _ ⟨z, hz, rfl⟩ _ (.inl rfl)).trans hgt
          · exact hgt
        rw [descend, hload]
        simp only [if_neg (not_lt.2 hgt.le), if_pos hgt]
        apply (ihb hright hb hbefore' hafter (by omega)).imp _ id
        rintro ⟨hdone, z, hz, hkey⟩
        exact ⟨hdone, z, by simp [inorder, hz], hkey⟩

end

/-- The registry after the calls in `past`, with its nodes as the tree `t`. -/
structure Registered (r : Registry) (past : List StringStor) (t : ColorTree ℕ) : Prop where
  focus : Focus r.tree t []
  balanced : t.Balanced
  black : t.color = .black
  sorted : (t.inorder.map fun x ↦ (r.stor x).inum).Pairwise (· < ·)
  allocated : t.inorder.Perm (List.range r.count)
  keys : ∀ k, k ∈ t.inorder.map (fun x ↦ (r.stor x).inum) ↔ k ∈ past.map StringStor.inum
  first : ∀ x ∈ t.inorder, ∃ p, past.find? (fun p ↦ p.inum = (r.stor x).inum) = some p ∧
    r.stor x = p.copy

namespace Registered

variable {r : Registry} {past : List StringStor} {t : ColorTree ℕ}

theorem start (node : ℕ → RbNode ℕ) (stor : ℕ → StringStor) :
    Registered (Registry.start node stor) [] nil where
  focus := ⟨trivial, rfl, .nil⟩
  balanced := ⟨trivial, 0, rfl⟩
  black := rfl
  sorted := .nil
  allocated := .refl _
  keys := fun _ ↦ .rfl
  first := nofun

theorem length_eq (h : Registered r past t) : t.inorder.length = r.count := by
  rw [h.allocated.length_eq, List.length_range]

/-- Another call for a key that is there adds nothing to what is recorded. -/
theorem repeated (h : Registered r past t) {p : StringStor}
    (hp : p.inum ∈ past.map StringStor.inum) : Registered r (past ++ [p]) t := by
  refine ⟨h.focus, h.balanced, h.black, h.sorted, h.allocated, fun k ↦ ?_, fun x hx ↦ ?_⟩
  · rw [h.keys, List.map_append, List.mem_append, List.map_singleton, List.mem_singleton]
    exact ⟨.inl, fun hk ↦ hk.elim id fun hk ↦ hk ▸ hp⟩
  · obtain ⟨q, hq, hcopy⟩ := h.first x hx
    exact ⟨q, by rw [List.find?_append, hq]; rfl, hcopy⟩

section

variable {ctx : List (Frame ℕ)} {u : ColorTree ℕ} {p : StringStor} {m : RbTree ℕ}

theorem inorder_eq (hplug : nil.plug ctx = t) : t.inorder = before ctx ++ after ctx := by
  rw [← hplug, plug_inorder, inorder, List.append_nil]

theorem not_registered (h : Registered r past t) (hplug : nil.plug ctx = t)
    (hbefore : ∀ x ∈ before ctx, (r.stor x).inum < p.inum)
    (hafter : ∀ x ∈ after ctx, p.inum < (r.stor x).inum) :
    p.inum ∉ past.map StringStor.inum := by
  rw [← h.keys, inorder_eq hplug, List.mem_map]
  rintro ⟨x, hx, hxp⟩
  rcases List.mem_append.1 hx with hx | hx
  · exact absurd hxp (hbefore x hx).ne
  · exact absurd hxp (hafter x hx).ne'

/-- A new key between those before and after its place. -/
theorem inserted (h : Registered r past t) (hplug : nil.plug ctx = t)
    (hbefore : ∀ x ∈ before ctx, (r.stor x).inum < p.inum)
    (hafter : ∀ x ∈ after ctx, p.inum < (r.stor x).inum)
    (hu : u.inorder = before ctx ++ [r.count] ++ after ctx) (hfocus : Focus m u [])
    (hbal : u.Balanced) (hblack : u.color = .black) :
    Registered ⟨m, Function.update r.stor r.count p.copy, r.count + 1⟩ (past ++ [p]) u := by
  have horder := inorder_eq hplug
  have hperm : u.inorder.Perm (r.count :: t.inorder) := by
    rw [hu, horder, List.append_assoc]
    exact List.perm_middle
  have hcopy : Function.update r.stor r.count p.copy r.count = p.copy := Function.update_self ..
  have hnum : (Function.update r.stor r.count p.copy r.count).inum = p.inum := by
    rw [hcopy]
    rfl
  have hkeep : ∀ x ∈ t.inorder, Function.update r.stor r.count p.copy x = r.stor x := fun x hx ↦
    Function.update_of_ne (Nat.ne_of_lt (List.mem_range.1 (h.allocated.mem_iff.1 hx))) ..
  have hmap {l : List ℕ} (hl : ∀ x ∈ l, x ∈ t.inorder) :
      l.map (fun x ↦ (Function.update r.stor r.count p.copy x).inum) =
        l.map fun x ↦ (r.stor x).inum :=
    List.map_congr_left fun x hx ↦ by rw [hkeep x (hl x hx)]
  refine ⟨hfocus, hbal, hblack, ?_, ?_, fun k ↦ ?_, fun x hx ↦ ?_⟩
  · have hsorted := h.sorted
    rw [horder, List.map_append, List.pairwise_append] at hsorted
    obtain ⟨hb, ha, hba⟩ := hsorted
    have hmapb := hmap (l := before ctx) fun x hx ↦ horder ▸ List.mem_append_left _ hx
    have hmapa := hmap (l := after ctx) fun x hx ↦ horder ▸ List.mem_append_right _ hx
    rw [hu, List.append_assoc, List.map_append, List.map_append, List.map_singleton, hnum, hmapb,
      hmapa, List.singleton_append]
    apply List.pairwise_append.2
    refine ⟨hb, List.pairwise_cons.2 ⟨?_, ha⟩, ?_⟩
    · exact List.forall_mem_map.2 hafter
    · intro k hk k' hk'
      rcases List.mem_cons.1 hk' with rfl | hk'
      · obtain ⟨x, hx, rfl⟩ := List.mem_map.1 hk
        exact hbefore x hx
      · exact hba k hk k' hk'
  · calc u.inorder
        _ |>.Perm (r.count :: t.inorder) := hperm
        _ |>.Perm (r.count :: List.range r.count) := h.allocated.cons _
        _ |>.Perm (List.range (r.count + 1)) := by
          rw [List.range_succ]
          exact (List.perm_append_singleton ..).symm
  · rw [(hperm.map _).mem_iff, List.map_cons, List.mem_cons, hnum, hmap fun _ ↦ id, h.keys,
      List.map_append, List.mem_append, List.map_singleton, List.mem_singleton, or_comm]
  · rcases List.mem_cons.1 (hperm.mem_iff.1 hx) with rfl | hx
    · refine ⟨p, ?_, hcopy⟩
      have hnone : past.find? (fun q ↦ q.inum = p.inum) = none := by
        rw [List.find?_eq_none]
        intro q hq hqp
        exact h.not_registered hplug hbefore hafter (List.mem_map.2 ⟨q, hq, by simpa using hqp⟩)
      rw [hnum, List.find?_append, hnone]
      simp
    · obtain ⟨q, hq, hqcopy⟩ := h.first x hx
      simp only [hkeep x hx]
      exact ⟨q, by rw [List.find?_append, hq]; rfl, hqcopy⟩

end

/-- One call: it records the string, and does nothing for a repeated key. -/
theorem register (h : Registered r past t) (p : StringStor) :
    ∃ r' t', cocolRbregisterString r p = .ok (p, r') ∧ Registered r' (past ++ [p]) t' ∧
      (p.inum ∈ past.map StringStor.inum → r' = r) := by
  have hfuel : t.inorder.length < r.count + 1 := Nat.lt_succ_of_le h.length_eq.le
  rcases descend_spec h.focus h.sorted nofun nofun hfuel with
    ⟨hdone, x, hx, hkey⟩ | ⟨ctx, hdone, hplug, hbefore, hafter⟩
  · have hp : p.inum ∈ past.map StringStor.inum :=
      (h.keys _).1 (List.mem_map.2 ⟨x, hx, hkey⟩)
    refine ⟨r, t, ?_, h.repeated hp, fun _ ↦ rfl⟩
    rw [linkTo, above_nil] at hdone
    simp only [cocolRbregisterString, hdone, bind, Except.bind]
    rfl
  · rw [plug] at hplug
    have hfocus : Focus r.tree nil ctx := focus_plug.2 (hplug ▸ h.focus)
    have hfits : Fits nil ctx := fits_plug.2 (hplug ▸ fits_nil.2 ⟨h.balanced, h.black⟩)
    have hids : (ids ctx).Perm (List.range r.count) := by
      have hperm := plug_perm nil ctx
      rw [hplug] at hperm
      exact hperm.symm.trans h.allocated
    have hfresh : r.count ∉ ids ctx := fun hc ↦
      Nat.lt_irrefl _ (List.mem_range.1 (hids.mem_iff.1 hc))
    have hctx : ctx.length < r.count + 1 := by
      have hlen := length_le_ids ctx
      rw [hids.length_eq, List.length_range] at hlen
      omega
    obtain ⟨m, u, hm, hu, hbal, hblack, hord⟩ :=
      rbRebalance_spec hctx (hfocus.link hfresh) hfits
    rw [plug_inorder] at hord
    refine ⟨⟨m, _, r.count + 1⟩, u, ?_, h.inserted hplug hbefore hafter hord hu hbal hblack,
      fun hp ↦ absurd hp (h.not_registered hplug hbefore hafter)⟩
    rw [linkTo, above_nil] at hdone
    simp only [cocolRbregisterString, hdone, bind, Except.bind, hm]
    rfl

/-- Any further calls. -/
theorem run (h : Registered r past t) (regs : List StringStor) :
    ∃ r' t', Lib.run registerStep r regs = .ok r' ∧ Registered r' (past ++ regs) t' := by
  induction regs generalizing r past t with
  | nil => exact ⟨r, t, rfl, by rwa [List.append_nil]⟩
  | cons p regs ih =>
      obtain ⟨r₁, t₁, hp, h₁, -⟩ := h.register p
      obtain ⟨r', t', hrun, h'⟩ := ih h₁
      refine ⟨r', t', ?_, by rwa [← List.append_cons] at h'⟩
      rw [run_cons_ok (by rw [registerStep, hp]; rfl), hrun]

end Registered

/-- Registering strings from an empty root, with any keys in any order:
`t` is the tree behind the links of the nodes. -/
theorem registry_ordered (node : ℕ → RbNode ℕ) (stor : ℕ → StringStor)
    (regs : List StringStor) :
    ∃ r t, Lib.run registerStep (Registry.start node stor) regs = .ok r ∧
      (r.tree.root = t.top ∧ TreeAt r.tree none t ∧ t.inorder.Perm (List.range r.count)) ∧
      (t.inorder.map fun x ↦ (r.stor x).inum).Pairwise (· < ·) ∧
      t.color = .black ∧ t.NoRedRed ∧ (∃ n, t.HasHeight n) ∧
      (∀ k, k ∈ t.inorder.map (fun x ↦ (r.stor x).inum) ↔ k ∈ regs.map StringStor.inum) ∧
      (∀ x ∈ t.inorder, ∃ p, regs.find? (fun p ↦ p.inum = (r.stor x).inum) = some p ∧
        r.stor x = p.copy ∧ text p.copy.szData = text p.szData) ∧
      (∀ p : StringStor, p.inum ∈ regs.map StringStor.inum →
        cocolRbregisterString r p = .ok (p, r)) ∧
      ∀ k, traverse (r.count + 1) r.tree k = .ok t.inorder := by
  obtain ⟨r, t, hrun, h⟩ := (Registered.start node stor).run regs
  rw [List.nil_append] at h
  obtain ⟨htree, hroot, -⟩ := h.focus
  refine ⟨r, t, hrun, ⟨hroot, htree, h.allocated⟩, h.sorted, h.black, h.balanced.1,
    h.balanced.2, h.keys, fun x hx ↦ ?_, fun p hp ↦ ?_, fun k ↦ ?_⟩
  · obtain ⟨p, hp, hcopy⟩ := h.first x hx
    exact ⟨p, hp, hcopy, p.text_copy⟩
  · obtain ⟨r', t', hstep, -, hsame⟩ := h.register p
    rw [hstep, hsame hp]
  · exact traverse_spec h.focus (Nat.lt_succ_of_le h.length_eq.le) k

/-- Falling keys, as the test registers them, and one of them again. -/
example :
    let entry : ℤ → StringStor := fun i ↦ ⟨List.replicate dataSize 0, i, rfl⟩
    (Lib.run registerStep (Registry.start (fun _ ↦ ⟨none, none, none, .red⟩) fun _ ↦ entry 0)
      ([3, 2, 1, 2].map entry) >>= fun r ↦ (traverse (r.count + 1) r.tree ⟨none⟩).map
        fun l ↦ (r.tree.root, l.map fun x ↦ (r.stor x).inum)) = .ok (some 1, [1, 2, 3]) := by
  rfl

end Cocool.Rbtree
