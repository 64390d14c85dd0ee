import Cocool.HashTable.Loops

/-!
# Finding, inserting and removing an entry

What the list holds together with the table over it, and what each of the
operations on an entry does to it.
-/

namespace Cocool.HashTable

open Lib

variable {ι δ : Type} [DecidableEq ι] {s s' : Hash ι δ} {x y z : ι} {p q : Option ι}
  {l l' l₁ l₂ : List ι} {sq : Sqlite} {pKey : List UInt8} {data : δ}

omit [DecidableEq ι] in
/-- Only the links, the slots and the table matter for the arrangement. -/
theorem Arranged.frame (ha : Arranged sq s l) (hfirst : s'.first = s.first) (hht : s'.ht = s.ht)
    (hsize : s'.htsize = s.htsize) (hlive : ∀ z ∈ l, z ∈ s'.live)
    (hlinks : ∀ z ∈ l, (s'.elem z).next = (s.elem z).next ∧ (s'.elem z).prev = (s.elem z).prev)
    (hkeys : ∀ z ∈ l, sq.fold (s'.elem z).pKey = sq.fold (s.elem z).pKey) :
    Arranged sq s' l := by
  have hslot : ∀ z ∈ l, slotOf sq s' z = slotOf sq s z := by
    intro z hz
    rw [slotOf, slotOf, strHash_congr (hkeys z hz), hsize]
  refine ⟨⟨hfirst.trans ha.first, ha.threaded.frame hlinks, ha.nodup, hlive⟩, fun bs hbs ↦ ?_⟩
  have hb := ha.buckets bs (hht.symm.trans hbs)
  refine ⟨hsize ▸ hb.size, hsize ▸ hb.pos, hb.grouped.congr hslot, fun h hh ↦ ?_⟩
  have hfilter : l.filter (slotOf sq s' · = h) = l.filter (slotOf sq s · = h) := by
    apply List.filter_congr
    intro z hz
    rw [hslot z hz]
  rw [hfilter]
  exact hb.bucket h (hsize ▸ hh)

/-- At most two elements for each bucket, once there are ten. -/
def Roomy (s : Hash ι δ) : Prop := s.count < 10 ∨ s.count ≤ 2 * s.htsize

/-- The table stores the elements of `l`: they are the allocated ones, no two
have the same key, and an empty table has given its buckets back. -/
structure Stored (sq : Sqlite) (s : Hash ι δ) (l : List ι) : Prop extends Arranged sq s l where
  count : s.count = l.length
  allocated : s.live.Perm l
  data : ∀ z ∈ l, ((s.elem z).data).isSome
  keys : (l.map fun z ↦ sq.fold (s.elem z).pKey).Nodup
  noTable : s.ht = none → s.htsize = 0
  small : s.htsize < 2 ^ 27
  empty : l = [] → s.ht = none

namespace Stored

omit [DecidableEq ι] in
theorem init (sq : Sqlite) (s : Hash ι δ) : Stored sq (sqlite3HashInit { s with live := [] }) [] where
  first := rfl
  threaded := trivial
  nodup := List.nodup_nil
  live := fun x hx ↦ absurd hx List.not_mem_nil
  buckets := fun bs hbs ↦ by cases hbs
  count := rfl
  allocated := .refl []
  data := fun x hx ↦ absurd hx List.not_mem_nil
  keys := List.nodup_nil
  noTable := fun _ ↦ rfl
  small := Nat.two_pow_pos 27
  empty := fun _ ↦ rfl

omit [DecidableEq ι] in
/-- An element is the only one with its key. -/
theorem eq_of_key (hs : Stored sq s l) (hx : x ∈ l) (hy : y ∈ l)
    (hxy : sq.fold (s.elem x).pKey = sq.fold (s.elem y).pKey) : x = y :=
  List.inj_on_of_nodup_map hs.keys hx hy hxy

end Stored

theorem leaveBucket_of_bucket {bs : List (Ht ι)} {b : Ht ι} {h : ℕ} (hht : s.ht = some bs)
    (hget : bs[h]? = some b) (hx : x ∈ s.live) (hcount : 1 ≤ b.count) :
    leaveBucket s x h = .ok (s.setBucket h (b.without x (s.elem x).next)) := by
  have hread : s.bucket h = .ok b := by simp [Hash.bucket, hht, hget]
  have hnext : (·.next) <$> s.read x = .ok (s.elem x).next := by
    rw [Hash.read_of_live hx]
    rfl
  have hpos : ¬ b.count - 1 < 0 := by omega
  by_cases hchain : b.chain = some x
  · simp only [leaveBucket, hht, hread, bind, Except.bind, hchain, if_true, hnext, hpos, if_false,
      Ht.without, pure, Except.pure]
  · simp only [leaveBucket, hht, hread, bind, Except.bind, hchain, if_false, hpos, Ht.without,
      pure, Except.pure]

/-- An element that is off the list leaves its bucket. -/
theorem Arranged.leave (ha : Arranged sq s (l₁ ++ x :: l₂)) (hx : sameKey sq s pKey x = true)
    (hout : LinkedOut s s' x l₁.getLast? l₂.head?) :
    ∃ s₂, leaveBucket s' x (keySlot sq s pKey) = .ok s₂ ∧ Arranged sq s₂ (l₁ ++ l₂) ∧
      Kept s s₂ ∧ s₂.ht.isSome = s.ht.isSome ∧ s₂.htsize = s.htsize := by
  have hon : OnList s' (l₁ ++ l₂) := ha.toOnList.unlink hout
  have hslot : slotOf sq s' = slotOf sq s := by
    funext z
    rw [slotOf, slotOf, hout.pKey, hout.htsize]
  cases hht : s.ht with
  | none =>
      have hht' : s'.ht = none := hout.ht.trans hht
      refine ⟨s', by rw [leaveBucket, hht'], ⟨hon, fun bs hbs ↦ ?_⟩,
        ⟨hout.live, hout.count, hout.data, hout.pKey⟩, by rw [hht'], hout.htsize⟩
      rw [hht'] at hbs
      cases hbs
  | some bs =>
      have hb := ha.buckets bs hht
      obtain ⟨b, hget, -⟩ := hb.bucket (slotOf sq s x) (slotOf_lt hb.pos)
      obtain ⟨hcount, hb'⟩ := hb.remove ha.nodup hget hslot hout.htsize
      have hht' : s'.ht = some bs := hout.ht.trans hht
      have hkey : keySlot sq s pKey = slotOf sq s x := by
        rw [keySlot, if_pos (by rw [hht]; rfl), sameKey_slot hx]
      have hleave := leaveBucket_of_bucket hht' hget (hout.live ▸ ha.live x (by simp)) hcount
      rw [hout.next_self, ← hkey] at hleave
      have hset : (s'.setBucket (keySlot sq s pKey) (b.without x l₂.head?)).ht =
          some (bs.set (slotOf sq s x) (b.without x l₂.head?)) := by
        rw [Hash.setBucket, hht', hkey]
        rfl
      refine ⟨s'.setBucket (keySlot sq s pKey) (b.without x l₂.head?), hleave,
        ⟨⟨hon.first, hon.threaded, hon.nodup, hon.live⟩, fun bs' hbs' ↦ ?_⟩,
        ⟨hout.live, hout.count, hout.data, hout.pKey⟩, by rw [hset]; rfl, hout.htsize⟩
      obtain rfl := Option.some.inj (hset.symm.trans hbs')
      exact ⟨hb'.size, hb'.pos, hb'.grouped, hb'.bucket⟩

namespace Stored

/-- The element is removed, and the whole table with the last one. -/
theorem remove (hs : Stored sq s (l₁ ++ x :: l₂)) (hlen : (l₁ ++ x :: l₂).length < 2 ^ 31)
    (hx : sameKey sq s pKey x = true) :
    ∃ s', removeElementGivenHash s x (keySlot sq s pKey) = .ok s' ∧ Stored sq s' (l₁ ++ l₂) ∧
      (∀ z, (s'.elem z).data = (s.elem z).data) ∧
      (∀ z, (s'.elem z).pKey = (s.elem z).pKey) ∧ (Roomy s → Roomy s') := by
  have hxs : x ∈ s.live := hs.live x (by simp)
  have hnodup := List.nodup_cons.1 (List.nodup_middle.1 hs.nodup)
  have hother : ∀ z ∈ l₁ ++ l₂, z ∈ s.live ∧ z ≠ x := by
    intro z hz
    refine ⟨hs.live z ?_, ne_of_mem_of_not_mem hz hnodup.1⟩
    exact List.perm_middle.mem_iff.2 (List.mem_cons_of_mem x hz)
  obtain ⟨s₁, hs₁, hout⟩ := unlinkElement_spec hxs
    (hs.threaded.prev_eq.trans Option.or_none) (hs.threaded.next_eq.trans Option.or_none)
    (fun z hz ↦ hother z (List.mem_append_left _ (List.mem_of_getLast? hz)))
    (fun z hz ↦ hother z (List.mem_append_right _ (List.mem_of_mem_head? hz)))
  obtain ⟨s₂, hs₂, ha₂, hkept, hht₂, hsize₂⟩ := hs.toArranged.leave hx hout
  have hfree : s₂.free x = .ok { s₂ with live := s₂.live.erase x } :=
    if_pos (hkept.live ▸ hxs)
  have hperm : (s₂.live.erase x).Perm (l₁ ++ l₂) := by
    have herase := (hs.allocated.trans List.perm_middle).erase x
    rwa [List.erase_cons_head, ← hkept.live] at herase
  have hcount : wrapUnsigned 32 ((s₂.count : ℤ) - 1) = (l₁ ++ l₂).length := by
    have hlength : s₂.count = (l₁ ++ l₂).length + 1 := by
      rw [hkept.count, hs.count, List.perm_middle.length_eq, List.length_cons]
    rw [List.perm_middle.length_eq, List.length_cons] at hlen
    have hwrap := wrapUnsigned_of_lt (w := 32) (n := ((l₁ ++ l₂).length : ℤ))
      (by omega) (by omega)
    rw [hlength, Nat.cast_add, Nat.cast_one, Int.add_sub_cancel]
    exact Int.ofNat_inj.1 hwrap
  have ha₃ : Arranged sq { s₂ with live := s₂.live.erase x, count := (l₁ ++ l₂).length }
      (l₁ ++ l₂) :=
    ha₂.frame rfl rfl rfl (fun z hz ↦ hperm.mem_iff.2 hz) (fun z _ ↦ ⟨rfl, rfl⟩) fun z _ ↦ rfl
  have hdo : removeElementGivenHash s x (keySlot sq s pKey) =
      if (l₁ ++ l₂).length = 0 then
        if s₂.first = none then
          sqlite3HashClear { s₂ with live := s₂.live.erase x, count := (l₁ ++ l₂).length }
        else .error .assertion
      else .ok { s₂ with live := s₂.live.erase x, count := (l₁ ++ l₂).length } := by
    simp only [removeElementGivenHash, hs₁, hs₂, hfree, hcount, bind, Except.bind, pure,
      Except.pure]
  by_cases hnil : l₁ ++ l₂ = []
  · rw [hnil, List.length_nil] at hdo ha₃
    have hfirst : s₂.first = none := ha₃.first
    rw [hnil] at hperm
    refine ⟨sqlite3HashInit { s₂ with live := [] }, ?_, hnil ▸ init sq s₂, hkept.data,
      hkept.pKey, fun _ ↦ .inl (Nat.zero_lt_succ 9)⟩
    rw [hdo, if_pos rfl, if_pos hfirst, sqlite3HashClear_spec ha₃.toOnList hperm]
    rfl
  · have hne : (l₁ ++ l₂).length ≠ 0 := fun h ↦ hnil (List.length_eq_zero_iff.1 h)
    have hsub : (l₁ ++ l₂).Sublist (l₁ ++ x :: l₂) :=
      (List.sublist_cons_self x l₂).append_left l₁
    refine ⟨{ s₂ with live := s₂.live.erase x, count := (l₁ ++ l₂).length },
      by rw [hdo, if_neg hne], ⟨ha₃, rfl, hperm, fun z hz ↦ ?_, ?_, fun hht ↦ ?_,
      hsize₂ ▸ hs.small, fun h ↦ absurd h hnil⟩, hkept.data, hkept.pKey, fun hroom ↦ ?_⟩
    · rw [hkept.data]
      exact hs.data z (hsub.subset hz)
    · simp only [hkept.pKey]
      exact hs.keys.sublist (hsub.map _)
    · have hht₂' : s.ht = none := by
        rw [← Option.not_isSome_iff_eq_none, ← hht₂, Option.not_isSome_iff_eq_none]
        exact hht
      exact hsize₂.trans (hs.noTable hht₂')
    · have hfewer : (l₁ ++ l₂).length ≤ s.count := hs.count ▸ hsub.length_le
      rw [Roomy] at hroom ⊢
      dsimp only
      omega

/-- The element gets new data and the new spelling of its key. -/
theorem replace (hs : Stored sq s l) (hkey : sameKey sq s pKey x = true) :
    Stored sq (s.withEntry x pKey data) l := by
  have hfold (z : ι) : sq.fold ((s.withEntry x pKey data).elem z).pKey =
      sq.fold (s.elem z).pKey := by
    rw [Hash.withEntry_pKey]
    split
    · subst z
      simpa [sameKey, eq_comm] using hkey
    · rfl
  have ha : Arranged sq (s.withEntry x pKey data) l := by
    refine hs.toArranged.frame rfl rfl rfl hs.live ?_ fun z _ ↦ hfold z
    exact fun z _ ↦ ⟨Hash.withEntry_next, Hash.withEntry_prev⟩
  refine ⟨ha, hs.count, hs.allocated, fun z hz ↦ ?_, ?_, hs.noTable, hs.small, hs.empty⟩
  · rw [Hash.withEntry_data]
    split
    · rfl
    · exact hs.data z hz
  · simp only [hfold]
    exact hs.keys

end Stored

/-- No block of up to a GiB is refused. -/
def Malloc.Unfailing (mem : Malloc ι) : Prop := ∀ n, 0 < n → n ≤ 2 ^ 30 → (mem.size n).isSome

/-- The table may grow; it has the same elements, and the slot of the key is
the one in the table it has now. -/
theorem growTable_spec (mem : Malloc ι) (pKey : List UInt8) (ha : Arranged sq s l)
    (hlen : l.length < 2 ^ 31) (hno : s.ht = none → s.htsize = 0) (hsmall : s.htsize < 2 ^ 27) :
    ∃ s' l', growTable sq mem s pKey (keySlot sq s pKey) = .ok (s', keySlot sq s' pKey) ∧
      Arranged sq s' l' ∧ l'.Perm l ∧ Kept s s' ∧ (s'.ht = none → s'.htsize = 0) ∧
      s'.htsize < 2 ^ 27 ∧
      (mem.Unfailing → sq.mallocSoftLimit = 0 → s.count ≤ 2 ^ 25 → Roomy s') := by
  have htwice : wrapUnsigned 32 (2 * s.htsize) = 2 * s.htsize := by
    have hwrap := wrapUnsigned_of_lt (w := 32) (n := ((2 * s.htsize : ℕ) : ℤ))
      (by omega) (by omega)
    exact Int.ofNat_inj.1 (by simpa using hwrap)
  have hdouble (hfew : s.count ≤ 2 ^ 25) : wrapUnsigned 32 (s.count * 2) = s.count * 2 := by
    have hwrap := wrapUnsigned_of_lt (w := 32) (n := ((s.count * 2 : ℕ) : ℤ))
      (by omega) (by omega)
    exact Int.ofNat_inj.1 (by simpa using hwrap)
  by_cases hgrow : s.count ≥ 10 ∧ s.count > wrapUnsigned 32 (2 * s.htsize)
  · rcases rehash_spec mem (wrapUnsigned 32 (s.count * 2)) ha hlen with
      ⟨hstay, hnone⟩ | ⟨s', l', hs', ha', hl', hkept, hht, hsmall', hlarge⟩
    · refine ⟨s, l, ?_, ha, .refl l, ⟨rfl, rfl, fun _ ↦ rfl, fun _ ↦ rfl⟩, hno, hsmall,
        fun hmem hlimit hfew ↦ ?_⟩
      · simp only [growTable, hgrow, and_self, if_true, hstay, bind, Except.bind,
          Bool.false_eq_true, if_false, pure, Except.pure]
      · -- the allocation of this block does not fail
        have hsome := hmem (wrapUnsigned 32 (s.count * 2) * sizeofHt)
          (by rw [hdouble hfew, sizeofHt]; omega) (by rw [hdouble hfew, sizeofHt]; omega)
        rw [newBlock, softLimited, hlimit, if_neg (lt_irrefl 0), Option.bind_some] at hnone
        rw [hnone] at hsome
        cases hsome
    · obtain ⟨bs, hbs⟩ := Option.isSome_iff_exists.1 hht
      have hpos := (ha'.buckets bs hbs).pos
      have hmod : hashMod sq pKey s'.htsize = .ok (keySlot sq s' pKey) := by
        rw [hashMod, if_neg (Nat.ne_of_gt hpos), keySlot, if_pos hht]
      refine ⟨s', l', ?_, ha', hl', hkept, fun hnone ↦ ?_, hsmall', fun _ hlimit hfew ↦ ?_⟩
      · simp only [growTable, hgrow, and_self, if_true, hs', bind, Except.bind, hpos, hmod, pure,
          Except.pure]
      · rw [hnone] at hht
        cases hht
      · have hroom := hlarge hlimit
        rw [hdouble hfew, ← hkept.count] at hroom
        exact .inr (by omega)
  · refine ⟨s, l, by rw [growTable, if_neg hgrow], ha, .refl l,
      ⟨rfl, rfl, fun _ ↦ rfl, fun _ ↦ rfl⟩, hno, hsmall, fun _ _ _ ↦ ?_⟩
    rw [Roomy]
    omega

/-- The memory and the list after a new entry. -/
structure Added (s s' : Hash ι δ) (x : ι) (pKey : List UInt8) (data : δ) : Prop where
  live : s'.live = x :: s.live
  data_self : (s'.elem x).data = some data
  pKey_self : (s'.elem x).pKey = pKey
  data : ∀ z, z ≠ x → (s'.elem z).data = (s.elem z).data
  pKey : ∀ z, z ≠ x → (s'.elem z).pKey = (s.elem z).pKey

omit [DecidableEq ι] in
/-- A new element with a new key. -/
theorem Stored.of_added (hs : Stored sq s l) (hadd : Added s s' x pKey data) (hx : x ∉ l)
    (hnew : ∀ z ∈ l, ¬ sameKey sq s pKey z = true) (ha : Arranged sq s' l')
    (hl' : l'.Perm (x :: l)) (hcount : s'.count = l.length + 1)
    (hno : s'.ht = none → s'.htsize = 0) (hsmall : s'.htsize < 2 ^ 27) : Stored sq s' l' where
  toArranged := ha
  count := hcount.trans hl'.length_eq.symm
  allocated := by
    rw [hadd.live]
    exact (hs.allocated.cons x).trans hl'.symm
  data := by
    intro z hz
    rcases List.mem_cons.1 (hl'.mem_iff.1 hz) with rfl | hz
    · rw [hadd.data_self]
      rfl
    · rw [hadd.data z (ne_of_mem_of_not_mem hz hx)]
      exact hs.data z hz
  keys := by
    rw [(hl'.map _).nodup_iff, List.map_cons, List.nodup_cons]
    have hsame : l.map (fun z ↦ sq.fold (s'.elem z).pKey) =
        l.map fun z ↦ sq.fold (s.elem z).pKey := by
      apply List.map_congr_left
      intro z hz
      rw [hadd.pKey z (ne_of_mem_of_not_mem hz hx)]
    rw [hsame, hadd.pKey_self]
    refine ⟨fun hmem ↦ ?_, hs.keys⟩
    obtain ⟨z, hz, hzk⟩ := List.mem_map.1 hmem
    exact hnew z hz (by simpa [sameKey] using hzk)
  noTable := hno
  small := hsmall
  empty := fun h ↦ by
    rw [h] at hl'
    exact absurd hl'.length_eq.symm (Nat.succ_ne_zero l.length)

/-- A new entry goes into the table, which may grow before. -/
theorem Stored.add (data : δ) (hs : Stored sq s l) (hlen : l.length + 1 < 2 ^ 31) {mem : Malloc ι}
    {place : { place : List ι → ι // ∀ used, place used ∉ used }} (hmem : mem.elem = some place)
    (hnew : ∀ z ∈ l, ¬ sameKey sq s pKey z = true) :
    ∃ s' l' x, addElement sq mem s pKey (keySlot sq s pKey) (some data) = .ok (s', none) ∧
      Stored sq s' l' ∧ x ∉ l ∧ l'.Perm (x :: l) ∧ Added s s' x pKey data ∧
      (mem.Unfailing → sq.mallocSoftLimit = 0 → l.length + 1 ≤ 2 ^ 25 → Roomy s') := by
  obtain ⟨x, hxdef⟩ : ∃ x, x = place.1 s.live := ⟨_, rfl⟩
  have hxs : x ∉ s.live := hxdef ▸ place.2 s.live
  have hxl : x ∉ l := fun hx ↦ hxs (hs.live x hx)
  have hcount : wrapUnsigned 32 ((s.count : ℤ) + 1) = l.length + 1 := by
    have hwrap := wrapUnsigned_of_lt (w := 32) (n := ((l.length + 1 : ℕ) : ℤ))
      (by omega) (by omega)
    rw [hs.count]
    exact Int.ofNat_inj.1 (by simpa using hwrap)
  -- the element is allocated and counted, but not linked in yet
  obtain ⟨s₁, hs₁⟩ : ∃ s₁, s₁ =
    ({ s with live := x :: s.live, count := l.length + 1 } : Hash ι δ).withEntry x pKey data :=
    ⟨_, rfl⟩
  have hother : ∀ z, z ≠ x → s₁.elem z = s.elem z := fun z hz ↦ by
    rw [hs₁]
    exact Function.update_of_ne hz _ _
  have hlive₁ : s₁.live = x :: s.live := hs₁ ▸ rfl
  have hcount₁ : s₁.count = l.length + 1 := hs₁ ▸ rfl
  have hslot₁ : keySlot sq s₁ pKey = keySlot sq s pKey := hs₁ ▸ rfl
  have ha₁ : Arranged sq s₁ l := by
    apply hs.toArranged.frame (hs₁ ▸ rfl) (hs₁ ▸ rfl) (hs₁ ▸ rfl)
    · exact fun z hz ↦ hlive₁ ▸ List.mem_cons_of_mem x (hs.live z hz)
    · intro z hz
      rw [hother z (ne_of_mem_of_not_mem hz hxl)]
      exact ⟨rfl, rfl⟩
    · intro z hz
      rw [hother z (ne_of_mem_of_not_mem hz hxl)]
  obtain ⟨s₂, l₂, hs₂, ha₂, hl₂, hkept, hno, hsmall, hroom⟩ :=
    growTable_spec mem pKey ha₁ (by omega) (hs₁ ▸ hs.noTable) (hs₁ ▸ hs.small)
  have hself : (s₂.elem x).pKey = pKey := by rw [hkept.pKey, hs₁, Hash.withEntry_pKey, if_pos rfl]
  have hentry : s₂.ht.map (fun _ ↦ keySlot sq s₂ pKey) =
      s₂.ht.map fun _ ↦ slotOf sq s₂ x := by
    cases hht : s₂.ht with
    | none => rfl
    | some bs => rw [Option.map_some, Option.map_some, keySlot, hht, slotOf, hself]; rfl
  obtain ⟨s₃, l₃, hs₃, ha₃, hl₃, hr₃, hht₃⟩ := insertElement_spec ha₂
    (fun hx ↦ hxl (hl₂.mem_iff.1 hx)) (hkept.live ▸ hlive₁ ▸ List.mem_cons_self)
    (by rw [hl₂.length_eq]; omega)
  have hperm : l₃.Perm (x :: l) := hl₃.trans (hl₂.cons x)
  have hadd : Added s s₃ x pKey data := by
    refine ⟨by rw [hr₃.live, hkept.live, hlive₁], ?_, (hr₃.pKey x).trans hself, fun z hz ↦ ?_,
      fun z hz ↦ ?_⟩
    · rw [hr₃.data, hkept.data, hs₁, Hash.withEntry_data, if_pos rfl]
    · rw [hr₃.data, hkept.data, hother z hz]
    · rw [hr₃.pKey, hkept.pKey, hother z hz]
  have hcount₃ : s₃.count = l.length + 1 := by rw [hr₃.count, hkept.count, hcount₁]
  refine ⟨s₃, l₃, x, ?_, hs.of_added hadd hxl hnew ha₃ hperm hcount₃ ?_ (hr₃.htsize ▸ hsmall),
    hxl, hperm, hadd, fun hmem hlimit hfew ↦ ?_⟩
  · simp only [addElement, hmem, hcount, ← hxdef, ← hs₁, ← hslot₁, hs₂, bind, Except.bind,
      hentry, hs₃, pure, Except.pure]
  · intro hnone
    rw [hr₃.htsize]
    apply hno
    rw [← Option.not_isSome_iff_eq_none, ← hht₃, hnone]
    simp
  · have hroom₂ := hroom hmem hlimit (hcount₁ ▸ hfew)
    rwa [Roomy, hcount₃, hr₃.htsize, ← hcount₁, ← hkept.count]

end Cocool.HashTable
