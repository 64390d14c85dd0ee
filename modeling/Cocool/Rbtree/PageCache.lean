import Cocool.Lib.SearchTree
import Cocool.Lib.Simulation
import Cocool.Rbtree.Erase

/-!
# The page cache of co_rbtree.h

The search and insert functions that the header gives to be used with the
tree, and pages taken out again with `rb_erase`.  Any sequence of calls
answers as a map from offsets to pages does.
-/

namespace Cocool.Rbtree

open Lib Lib.ColorTree Lib.Context

variable {ι : Type} [DecidableEq ι]

/-- An `inode` with its `i_rb_page_cache` and the pages, whose first member
is their node. -/
structure PageCache (ι : Type) where
  tree : RbTree ι
  offset : ι → ℕ

omit [DecidableEq ι] in
/-- The loop of `rb_search_page_cache`. -/
def searchLoop (r : PageCache ι) (offset : ℕ) : ℕ → Option ι → Except Fault (Option ι)
  | 0, _ => .error .fuel
  | _ + 1, none => .ok none
  | fuel + 1, some n =>
      if offset < r.offset n then searchLoop r offset fuel (r.tree.node n).rbLeft
      else if offset > r.offset n then searchLoop r offset fuel (r.tree.node n).rbRight
      else .ok (some n)

omit [DecidableEq ι] in
def rbSearchPageCache (fuel : ℕ) (r : PageCache ι) (offset : ℕ) : Except Fault (Option ι) :=
  searchLoop r offset fuel r.tree.root

/-- What the loop of `rb_insert_page_cache` ends with: `p` and `parent`, or
the page to return. -/
inductive Place (ι : Type)
  | free (p : Link ι) (parent : Option ι)
  | taken (page : ι)

omit [DecidableEq ι] in
/-- The loop of `rb_insert_page_cache`. -/
def insertLoop (r : PageCache ι) (offset : ℕ) : ℕ → Link ι → Option ι → Except Fault (Place ι)
  | 0, _, _ => .error .fuel
  | fuel + 1, p, parent =>
      match r.tree.load p with
      | none => .ok (.free p parent)
      | some page =>
          if offset < r.offset page then insertLoop r offset fuel (.child .left page) (some page)
          else if offset > r.offset page then
            insertLoop r offset fuel (.child .right page) (some page)
          else .ok (.taken page)

def rbInsertPageCache (fuel : ℕ) (r : PageCache ι) (offset : ℕ) (node : ι) :
    Except Fault (PageCache ι × Option ι) := do
  match ← insertLoop r offset fuel .root none with
  | .taken page => return (r, some page)
  | .free p parent =>
      let m := r.tree.setParent node parent
      let m := m.setChild .right node none
      let m := m.setChild .left node none
      let m := m.store p (some node)
      let m ← rbRebalance fuel m node
      return ({ r with tree := m }, none)

/-- The calls of a client. -/
inductive PageOp (ι : Type)
  /-- `rb_insert_page_cache`, with the offset stored in the page before it. -/
  | insert (offset : ℕ) (page : ι)
  /-- `rb_search_page_cache`. -/
  | search (offset : ℕ)
  /-- `rb_erase` of the page that `rb_search_page_cache` finds. -/
  | erase (offset : ℕ)

def pageStep (fuel : ℕ) (r : PageCache ι) : PageOp ι → Except Fault (PageCache ι × Option ι)
  | .insert offset page =>
      rbInsertPageCache fuel { r with offset := Function.update r.offset page offset } offset page
  | .search offset => (rbSearchPageCache fuel r offset).map fun page ↦ (r, page)
  | .erase offset => do
      match ← rbSearchPageCache fuel r offset with
      | none => return (r, none)
      | some page => return ({ r with tree := ← rbErase fuel r.tree page }, some page)

/-- A map from offsets to pages, with the same calls. -/
def mapStep (pages : ℕ → Option ι) : PageOp ι → (ℕ → Option ι) × Option ι
  | .insert offset page =>
      match pages offset with
      | some other => (pages, some other)
      | none => (Function.update pages offset (some page), none)
  | .search offset => (pages, pages offset)
  | .erase offset => (Function.update pages offset none, pages offset)

/-- Only a page that is not in the cache may be inserted. -/
def FreshPage (pages : ℕ → Option ι) : PageOp ι → Prop
  | .insert _ page => ∀ offset, pages offset ≠ some page
  | _ => True

/-- The pages under the tree `t` are those of the map. -/
structure Cached (r : PageCache ι) (t : ColorTree ι) (pages : ℕ → Option ι) : Prop where
  focus : Focus r.tree t []
  fits : Fits t []
  sorted : (t.inorder.map r.offset).Pairwise (· < ·)
  mem : ∀ k x, pages k = some x ↔ x ∈ t.inorder ∧ r.offset x = k

section

variable {r : PageCache ι} {t : ColorTree ι} {p : Option ι} {ctx : List (Frame ι)} {k fuel : ℕ}
  {x : ι}

omit [DecidableEq ι] in
theorem searchLoop_spec (h : TreeAt r.tree p t) (ctx : List (Frame ι)) (hfuel : t.depth < fuel) :
    searchLoop r k fuel t.top = .ok (seek r.offset k t ctx).1.top := by
  induction t generalizing p ctx fuel with
  | nil =>
      obtain ⟨fuel, rfl⟩ : ∃ n, fuel = n + 1 := ⟨fuel - 1, by omega⟩
      rfl
  | node c a x b iha ihb =>
      rw [depth] at hfuel
      obtain ⟨fuel, rfl⟩ : ∃ n, fuel = n + 1 := ⟨fuel - 1, by omega⟩
      obtain ⟨-, -, hleft, hright, ha, hb⟩ := h
      have hl : (r.tree.node x).rbLeft = a.top := hleft
      have hr : (r.tree.node x).rbRight = b.top := hright
      simp only [Lib.ColorTree.top, searchLoop, seek, gt_iff_lt, hl, hr]
      split
      · exact iha ha _ (by omega)
      split
      · exact ihb hb _ (by omega)
      · rfl

omit [DecidableEq ι] in
theorem insertLoop_spec (h : Focus r.tree t ctx) (hfuel : t.depth < fuel) :
    insertLoop r k fuel (linkTo ctx) (above ctx) =
      .ok (match (seek r.offset k t ctx).1.top with
        | none => .free (linkTo (seek r.offset k t ctx).2) (above (seek r.offset k t ctx).2)
        | some page => .taken page) := by
  induction t generalizing ctx fuel with
  | nil =>
      obtain ⟨fuel, rfl⟩ : ∃ n, fuel = n + 1 := ⟨fuel - 1, by omega⟩
      simp only [insertLoop, h.2.1.load, Lib.ColorTree.top, seek]
  | node c a x b iha ihb =>
      rw [depth] at hfuel
      obtain ⟨fuel, rfl⟩ : ∃ n, fuel = n + 1 := ⟨fuel - 1, by omega⟩
      have hload : r.tree.load (linkTo ctx) = some x := h.2.1.load
      have hleft : Focus r.tree a (⟨.left, c, x, b⟩ :: ctx) := focus_cons.2 h
      have hright : Focus r.tree b (⟨.right, c, x, a⟩ :: ctx) := focus_cons.2 h
      simp only [insertLoop, hload, seek, gt_iff_lt]
      split
      · exact iha hleft (by omega)
      split
      · exact ihb hright (by omega)
      · rfl

end

namespace Cached

variable {r : PageCache ι} {t : ColorTree ι} {pages : ℕ → Option ι} {k fuel : ℕ} {x : ι}

omit [DecidableEq ι] in
theorem start (node : ι → RbNode ι) (offset : ι → ℕ) :
    Cached ⟨⟨node, none⟩, offset⟩ nil fun _ ↦ none where
  focus := ⟨trivial, rfl, .nil⟩
  fits := fits_nil.2 ⟨⟨trivial, 0, rfl⟩, rfl⟩
  sorted := .nil
  mem := by simp [inorder]

omit [DecidableEq ι] in
/-- An unsuccessful search ends between the smaller and the larger offsets. -/
theorem between (h : Cached r t pages) (hnil : (seek r.offset k t []).1 = nil) :
    t.inorder = before (seek r.offset k t []).2 ++ after (seek r.offset k t []).2 ∧
      (∀ z ∈ before (seek r.offset k t []).2, r.offset z < k) ∧
      ∀ z ∈ after (seek r.offset k t []).2, k < r.offset z := by
  refine ⟨?_, seek_between h.sorted nofun nofun hnil⟩
  have hplug := plug_seek r.offset k t []
  have hord := plug_inorder nil (seek r.offset k t []).2
  rw [hnil, plug] at hplug
  rwa [hplug, inorder, List.append_nil] at hord

omit [DecidableEq ι] in
/-- The search finds the page of the map. -/
theorem seek_eq (h : Cached r t pages) (k : ℕ) : (seek r.offset k t []).1.top = pages k := by
  cases htop : (seek r.offset k t []).1.top with
  | some x =>
      have hmem : x ∈ (plug t []).inorder := by
        rw [← plug_seek r.offset k t [], (plug_perm ..).mem_iff]
        exact List.mem_append_left _ (top_mem htop)
      exact ((h.mem k x).2 ⟨hmem, seek_top _ _ _ _ x htop⟩).symm
  | none =>
      have hnil : (seek r.offset k t []).1 = nil := by
        cases hseek : (seek r.offset k t []).1 with
        | nil => rfl
        | node => simp [hseek, Lib.ColorTree.top] at htop
      obtain ⟨hord, hbefore, hafter⟩ := h.between hnil
      cases hk : pages k with
      | none => rfl
      | some x =>
          obtain ⟨hx, rfl⟩ := (h.mem k x).1 hk
          rw [hord, List.mem_append] at hx
          rcases hx with hx | hx
          · exact absurd (hbefore x hx) (Nat.lt_irrefl _)
          · exact absurd (hafter x hx) (Nat.lt_irrefl _)

omit [DecidableEq ι] in
theorem depth_le_log (h : Cached r t pages) : t.depth ≤ 2 * Nat.log 2 (t.inorder.length + 1) := by
  obtain ⟨hbal, hblack⟩ := fits_nil.1 h.fits
  exact hbal.depth_le_log hblack

omit [DecidableEq ι] in
theorem search (h : Cached r t pages) (hfuel : t.depth < fuel) (k : ℕ) :
    rbSearchPageCache fuel r k = .ok (pages k) := by
  have hroot : r.tree.root = t.top := h.focus.2.1
  rw [rbSearchPageCache, hroot, searchLoop_spec h.focus.1 [] hfuel, h.seek_eq]

omit [DecidableEq ι] in
/-- The page of an offset is the one in the tree that has it. -/
theorem find_eq (h : Cached r t pages) (k : ℕ) :
    t.inorder.find? (fun x ↦ r.offset x = k) = pages k := by
  cases hk : pages k with
  | none =>
      refine List.find?_eq_none.2 fun x hx hxk ↦ ?_
      have hsome := (h.mem k x).2 ⟨hx, by simpa using hxk⟩
      exact absurd (hk.symm.trans hsome) nofun
  | some x =>
      obtain ⟨hx, hxk⟩ := (h.mem k x).1 hk
      cases hfind : t.inorder.find? fun x ↦ r.offset x = k with
      | none => exact absurd (decide_eq_true hxk) (List.find?_eq_none.1 hfind x hx)
      | some y =>
          have hyk : r.offset y = k := by simpa using List.find?_some hfind
          have hy := (h.mem k y).2 ⟨List.mem_of_find?_eq_some hfind, hyk⟩
          exact hy.symm.trans hk

/-- A page that is not in the cache may have any offset. -/
theorem setOffset (h : Cached r t pages) (hx : x ∉ t.inorder) (k : ℕ) :
    Cached { r with offset := Function.update r.offset x k } t pages := by
  have hkeep : ∀ z ∈ t.inorder, Function.update r.offset x k z = r.offset z :=
    fun z hz ↦ Function.update_of_ne (ne_of_mem_of_not_mem hz hx) ..
  refine ⟨h.focus, h.fits, ?_, fun k z ↦ ?_⟩
  · rw [List.map_congr_left hkeep]
    exact h.sorted
  · rw [h.mem]
    constructor
    · exact fun ⟨hz, hk⟩ ↦ ⟨hz, (hkeep z hz).trans hk⟩
    · exact fun ⟨hz, hk⟩ ↦ ⟨hz, (hkeep z hz).symm.trans hk⟩

omit [DecidableEq ι] in
/-- A page between the smaller and the larger offsets. -/
theorem inserted {m : RbTree ι} {u : ColorTree ι} {l₁ l₂ : List ι} (h : Cached r t pages)
    (hx : r.offset x = k) (hord : t.inorder = l₁ ++ l₂) (hbefore : ∀ z ∈ l₁, r.offset z < k)
    (hafter : ∀ z ∈ l₂, k < r.offset z) (hu : u.inorder = l₁ ++ [x] ++ l₂) (hfocus : Focus m u [])
    (hfits : Fits u []) :
    Cached { r with tree := m } u (Function.update pages k (some x)) := by
  refine ⟨hfocus, hfits, ?_, fun k' z ↦ ?_⟩
  · have hsorted := h.sorted
    simp only [hord, hu, List.map_append, List.pairwise_append, List.map_cons, List.map_nil, hx,
      List.pairwise_singleton, List.mem_append, List.mem_map, List.mem_singleton,
      forall_exists_index, and_imp, forall_apply_eq_imp_iff₂, forall_eq] at hsorted ⊢
    obtain ⟨h₁, h₂, h₁₂⟩ := hsorted
    refine ⟨⟨h₁, trivial, hbefore⟩, h₂, ?_⟩
    rintro _ (⟨z, hz, rfl⟩ | rfl) w hw
    · exact h₁₂ z hz w hw
    · exact hafter w hw
  · by_cases hk : k' = k
    · rw [hk, Function.update_self, Option.some_inj]
      constructor
      · rintro rfl
        exact ⟨by simp [hu], hx⟩
      · rintro ⟨hz, hzk⟩
        simp only [hu, List.mem_append, List.mem_singleton] at hz
        rcases hz with (hz | hz) | hz
        · exact absurd hzk (Nat.ne_of_lt (hbefore z hz))
        · exact hz.symm
        · exact absurd hzk (Nat.ne_of_gt (hafter z hz))
    · rw [Function.update_of_ne hk, h.mem, hord, hu]
      have hzx : r.offset z = k' → z ≠ x := by
        rintro rfl rfl
        exact hk hx
      simp only [List.mem_append, List.mem_singleton]
      constructor
      · rintro ⟨hz, hzk⟩
        exact ⟨by tauto, hzk⟩
      · rintro ⟨(hz | hz) | hz, hzk⟩
        · exact ⟨.inl hz, hzk⟩
        · exact absurd hz (hzx hzk)
        · exact ⟨.inr hz, hzk⟩

theorem insert (h : Cached r t pages) (hx : r.offset x = k) (hfresh : x ∉ t.inorder)
    (hfuel : t.depth < fuel) :
    ∃ r' u, rbInsertPageCache fuel r k x = .ok (r', pages k) ∧ r'.offset = r.offset ∧
      Cached r' u (mapStep pages (.insert k x)).1 ∧ u.inorder.length ≤ t.inorder.length + 1 := by
  have hloop := insertLoop_spec (k := k) h.focus hfuel
  rw [linkTo, above_nil, h.seek_eq] at hloop
  cases hk : pages k with
  | some page =>
      refine ⟨r, t, ?_, rfl, ?_, Nat.le_succ _⟩
      · simp only [rbInsertPageCache, hloop, hk, bind, Except.bind]
        rfl
      · simpa only [mapStep, hk] using h
  | none =>
      have hnil : (seek r.offset k t []).1 = nil := by
        have htop := (h.seek_eq k).trans hk
        cases hseek : (seek r.offset k t []).1 with
        | nil => rfl
        | node => simp [hseek, Lib.ColorTree.top] at htop
      obtain ⟨hord, hbefore, hafter⟩ := h.between hnil
      have hplug : nil.plug (seek r.offset k t []).2 = t := hnil ▸ plug_seek r.offset k t []
      obtain ⟨ctx, hctx⟩ : ∃ ctx, ctx = (seek r.offset k t []).2 := ⟨_, rfl⟩
      rw [← hctx] at hord hbefore hafter hplug hloop
      have hfocus : Focus r.tree nil ctx := focus_plug.2 (hplug ▸ h.focus)
      have hids : (ids ctx).Perm t.inorder := by
        have hperm := plug_perm nil ctx
        rw [hplug] at hperm
        exact hperm.symm
      have hlen : ctx.length < fuel := by
        have hdeep := depth_le_plug nil ctx
        rw [hplug, depth] at hdeep
        omega
      obtain ⟨m, u, hm, hu, hbal, hblack, huord⟩ := rbRebalance_spec hlen
        (hfocus.link fun hx ↦ hfresh (hids.mem_iff.1 hx)) (fits_plug.2 (hplug ▸ h.fits))
      rw [plug_inorder] at huord
      refine ⟨{ r with tree := m }, u, ?_, rfl, ?_, ?_⟩
      · simp only [rbInsertPageCache, hloop, hk, bind, Except.bind, hm]
        rfl
      · simp only [mapStep, hk]
        exact h.inserted hx hord hbefore hafter huord hu (fits_nil.2 ⟨hbal, hblack⟩)
      · rw [huord, hord]
        simp [inorder]
        omega

theorem erase (h : Cached r t pages) (hk : pages k = some x) (hfuel : t.depth ≤ fuel) :
    ∃ m u, rbErase fuel r.tree x = .ok m ∧
      Cached { r with tree := m } u (Function.update pages k none) ∧
      u.inorder.length ≤ t.inorder.length := by
  obtain ⟨hx, hxk⟩ := (h.mem k x).1 hk
  obtain ⟨c, a, b, ctx, hplug⟩ := exists_plug [] hx
  rw [plug] at hplug
  subst hplug
  obtain ⟨m, u, hm, hu, hfits, hord⟩ := rbErase_spec hfuel (focus_plug.2 h.focus)
    (fits_plug.2 h.fits)
  have hwhole : ((ColorTree.node c a x b).plug ctx).inorder =
      (before ctx ++ a.inorder) ++ x :: (b.inorder ++ after ctx) := by
    rw [plug_inorder]
    simp [inorder]
  have hord' : u.inorder = (before ctx ++ a.inorder) ++ (b.inorder ++ after ctx) := by
    simpa using hord
  have hsub : u.inorder.Sublist ((ColorTree.node c a x b).plug ctx).inorder := by
    rw [hwhole, hord']
    exact (List.Sublist.refl _).append (List.sublist_cons_self ..)
  refine ⟨m, u, hm, ⟨hu, hfits, h.sorted.sublist (hsub.map _), fun k' z ↦ ?_⟩, hsub.length_le⟩
  have hnodup := h.focus.2.2
  rw [plug, hwhole] at hnodup
  have hxu : x ∉ u.inorder := hord' ▸ (List.nodup_cons.1 (List.nodup_middle.1 hnodup)).1
  have hmem : z ∈ ((ColorTree.node c a x b).plug ctx).inorder ↔ z = x ∨ z ∈ u.inorder := by
    rw [hwhole, hord', List.perm_middle.mem_iff, List.mem_cons]
  by_cases hkk : k' = k
  · rw [hkk, Function.update_self]
    constructor
    · intro hnone
      cases hnone
    · rintro ⟨hz, hzk⟩
      have hkz : pages k = some z := (h.mem k z).2 ⟨hmem.2 (.inr hz), hzk⟩
      obtain rfl : z = x := Option.some.inj (hkz.symm.trans hk)
      exact (hxu hz).elim
  · rw [Function.update_of_ne hkk, h.mem, hmem]
    constructor
    · rintro ⟨rfl | hz, hzk⟩
      · exact absurd (hzk.symm.trans hxk) hkk
      · exact ⟨hz, hzk⟩
    · rintro ⟨hz, hzk⟩
      exact ⟨.inr hz, hzk⟩

/-- One call answers as the map does. -/
theorem step (h : Cached r t pages) (op : PageOp ι) (hfresh : FreshPage pages op)
    (hfuel : t.depth < fuel) :
    ∃ r' u, pageStep fuel r op = .ok (r', (mapStep pages op).2) ∧
      Cached r' u (mapStep pages op).1 ∧ u.inorder.length ≤ t.inorder.length + 1 := by
  cases op with
  | insert k x =>
      have hx : x ∉ t.inorder := fun hx ↦ hfresh (r.offset x) ((h.mem _ x).2 ⟨hx, rfl⟩)
      obtain ⟨r', u, hr', -, hu, hlen⟩ :=
        (h.setOffset hx k).insert (Function.update_self ..) hx hfuel
      refine ⟨r', u, ?_, hu, hlen⟩
      rw [pageStep, hr', mapStep]
      cases pages k <;> rfl
  | search k =>
      refine ⟨r, t, ?_, h, Nat.le_succ _⟩
      rw [pageStep, h.search hfuel]
      rfl
  | erase k =>
      cases hk : pages k with
      | none =>
          refine ⟨r, t, ?_, ?_, Nat.le_succ _⟩
          · simp only [pageStep, h.search hfuel, hk, bind, Except.bind, mapStep]
            rfl
          · rwa [mapStep, Function.update_eq_self_iff.2 hk.symm]
      | some x =>
          obtain ⟨m, u, hm, hu, hlen⟩ := h.erase hk (Nat.le_of_lt hfuel)
          refine ⟨_, u, ?_, hu, Nat.le_succ_of_le hlen⟩
          simp only [pageStep, h.search hfuel, hk, bind, Except.bind, hm, mapStep]
          rfl

end Cached

/-- A run of calls, each of which inserts a page that is not in the cache or
none at all, and the tree it leaves. -/
theorem pageCache_run (node : ι → RbNode ι) (offset : ι → ℕ) {ops : List (PageOp ι)} {fuel : ℕ}
    (hfuel : 2 * Nat.log 2 ops.length < fuel)
    (hfresh : Allowed mapStep FreshPage (fun _ ↦ none) ops) :
    ∃ r t, answers (pageStep fuel) ⟨⟨node, none⟩, offset⟩ ops =
        .ok (r, (idealAnswers mapStep (fun _ ↦ none) ops).2) ∧
      Cached r t (idealAnswers mapStep (fun _ ↦ none) ops).1 ∧ t.inorder.length ≤ ops.length := by
  have hstep : ∀ n (r : PageCache ι) pages op, n < ops.length →
      (∃ t, Cached r t pages ∧ t.inorder.length ≤ n) →
      FreshPage pages op → ∃ r', pageStep fuel r op = .ok (r', (mapStep pages op).2) ∧
        ∃ u, Cached r' u (mapStep pages op).1 ∧ u.inorder.length ≤ n + 1 := by
    rintro n r pages op hn ⟨t, ht, hlen⟩ hop
    have hlt : t.depth < fuel := by
      have hlog : Nat.log 2 (t.inorder.length + 1) ≤ Nat.log 2 ops.length :=
        Nat.log_mono_right (by omega)
      have hdepth := ht.depth_le_log
      omega
    obtain ⟨r', u, hr', hu, hle⟩ := ht.step op hop hlt
    exact ⟨r', hr', u, hu, by omega⟩
  obtain ⟨r, hr, t, ht, hlen⟩ := answers_of_step
    (fun n r pages ↦ ∃ t, Cached r t pages ∧ t.inorder.length ≤ n) hstep
    (Nat.le_of_eq (Nat.zero_add _)) ⟨nil, Cached.start node offset, Nat.le_refl 0⟩ hfresh
  exact ⟨r, t, hr, ht, by rwa [Nat.zero_add] at hlen⟩

/-- Inserting, looking up and erasing pages answers as a map from offsets to
pages does, where no loop makes more than `2 * log n + 1` passes in `n`
calls.  The tree that is left is balanced and holds the pages of the map, and
the loop over `rb_first` and `rb_next` comes to them in the order of their
offsets. -/
theorem pageCache_answers_map (node : ι → RbNode ι) (offset : ι → ℕ) (ops : List (PageOp ι))
    (fuel : ℕ) (hfuel : 2 * Nat.log 2 ops.length < fuel)
    (hfresh : Allowed mapStep FreshPage (fun _ ↦ none) ops) :
    ∃ r t, answers (pageStep fuel) ⟨⟨node, none⟩, offset⟩ ops =
        .ok (r, (idealAnswers mapStep (fun _ ↦ none) ops).2) ∧
      (r.tree.root = t.top ∧ TreeAt r.tree none t ∧ t.inorder.Nodup) ∧
      (t.Balanced ∧ t.color = .black) ∧
      (∀ k x, (idealAnswers mapStep (fun _ ↦ none) ops).1 k = some x ↔
        x ∈ t.inorder ∧ r.offset x = k) ∧
      (t.inorder.map r.offset).Pairwise (· < ·) ∧
      ∀ n q, ops.length < n → traverse n r.tree q = .ok t.inorder := by
  obtain ⟨r, t, hrun, h, hlen⟩ := pageCache_run node offset hfuel hfresh
  obtain ⟨htree, hroot, hn⟩ := h.focus
  exact ⟨r, t, hrun, ⟨hroot, htree, hn⟩, fits_nil.1 h.fits, h.mem, h.sorted,
    fun n q hq ↦ traverse_spec h.focus (Nat.lt_of_le_of_lt hlen hq) q⟩

/-- Two pages go in, one of them is found, goes out, and is found no more. -/
theorem pageCache_answers_map_erased :
    ∃ r, answers (pageStep 5) ⟨⟨fun _ ↦ ⟨none, none, none, .red⟩, none⟩, fun _ : ℕ ↦ 0⟩
      [.insert 7 1, .insert 3 2, .search 7, .erase 7, .search 7] =
        .ok (r, [none, none, some 1, some 1, none]) := by
  obtain ⟨r, t, hrun, -⟩ := pageCache_answers_map (fun _ ↦ ⟨none, none, none, .red⟩)
    (fun _ : ℕ ↦ 0) [.insert 7 1, .insert 3 2, .search 7, .erase 7, .search 7] 5 (by decide)
    (by simp [Allowed, mapStep, FreshPage, Function.update_apply])
  exact ⟨r, hrun⟩

/-- However the pages came and went, the loops of the search and of the
insertion make at most `2 * log n + 1` passes over the `n` pages in the
cache, and the search finds the page with the offset among them. -/
theorem pageCache_loops_log (node : ι → RbNode ι) (offset : ι → ℕ) (ops : List (PageOp ι))
    (fuel : ℕ) (hfuel : 2 * Nat.log 2 ops.length < fuel)
    (hfresh : Allowed mapStep FreshPage (fun _ ↦ none) ops) :
    ∃ r bs l, answers (pageStep fuel) ⟨⟨node, none⟩, offset⟩ ops = .ok (r, bs) ∧
      traverse (ops.length + 1) r.tree ⟨none⟩ = .ok l ∧
      ∀ k, rbSearchPageCache (2 * Nat.log 2 (l.length + 1) + 1) r k =
          .ok (l.find? fun x ↦ r.offset x = k) ∧
        ∃ place, insertLoop r k (2 * Nat.log 2 (l.length + 1) + 1) .root none = .ok place := by
  obtain ⟨r, t, hrun, h, hlen⟩ := pageCache_run node offset hfuel hfresh
  have hdepth := Nat.lt_succ_of_le h.depth_le_log
  refine ⟨r, _, t.inorder, hrun, traverse_spec h.focus (Nat.lt_succ_of_le hlen) _,
    fun k ↦ ⟨?_, _, insertLoop_spec h.focus hdepth⟩⟩
  rw [h.search hdepth, h.find_eq]

theorem pageCache_loops_log_two :
    ∃ r l, traverse 3 r.tree ⟨none⟩ = .ok l ∧
      rbSearchPageCache (2 * Nat.log 2 (l.length + 1) + 1) r 7 =
        .ok (l.find? fun x : ℕ ↦ r.offset x = 7) := by
  obtain ⟨r, _, l, -, hl, hlog⟩ := pageCache_loops_log (fun _ ↦ ⟨none, none, none, .red⟩)
    (fun _ : ℕ ↦ 0) [.insert 7 1, .insert 3 2] 3 (by decide)
    (by simp [Allowed, mapStep, FreshPage, Function.update_apply])
  exact ⟨r, l, hl, (hlog 7).1⟩

end Cocool.Rbtree
