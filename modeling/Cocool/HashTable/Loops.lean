import Cocool.HashTable.Links
import Mathlib.Data.List.Perm.Subperm

/-!
# Searching, resizing and clearing

The three loops over the list: the search in a bucket, the loop of `rehash`
that puts every element into a new table, and the one that frees them all.
-/

namespace Cocool.HashTable

open Lib

variable {ι δ : Type} [DecidableEq ι] {s s' : Hash ι δ} {x y z : ι} {p q : Option ι}
  {l l₁ l₂ r : List ι} {sq : Sqlite} {pKey : List UInt8} {fuel : ℕ}

/-- What two keys must share to be the same. -/
def Sqlite.fold (sq : Sqlite) (z : List UInt8) : List UInt8 := (cstring z).map sq.upperToLower

theorem strHashFrom_fold (sq : Sqlite) (h : UInt32) (z : List UInt8) :
    strHashFrom sq h z = (sq.fold z).foldl (fun h c ↦ (h + c.toUInt32) * 0x9e3779b1) h := by
  induction z generalizing h with
  | nil => rfl
  | cons c z ih =>
      rw [strHashFrom, Sqlite.fold, cstring, List.takeWhile_cons]
      by_cases hc : c = 0
      · simp [hc]
      · rw [if_neg hc, if_pos (by simpa using hc), List.map_cons, List.foldl_cons, ih]
        rfl

/-- Equal keys have equal hashes. -/
theorem strHash_congr {a b : List UInt8} (h : sq.fold a = sq.fold b) :
    strHash sq a = strHash sq b := by
  rw [strHash, strHash, strHashFrom_fold, strHashFrom_fold, h]

/-- The test of `findLoop`. -/
def sameKey (sq : Sqlite) (s : Hash ι δ) (pKey : List UInt8) (x : ι) : Bool :=
  sq.fold (s.elem x).pKey = sq.fold pKey

/-- The search through a segment of the list. -/
theorem findLoop_spec (sq : Sqlite) (pKey : List UInt8)
    (h : Threaded (fun x ↦ (s.elem x).next) (fun x ↦ (s.elem x).prev) p l q)
    (hlive : ∀ x ∈ l, x ∈ s.live) :
    findLoop sq s pKey l.length (l.head?.or q) = .ok (l.find? (sameKey sq s pKey)) := by
  induction l generalizing p with
  | nil => rfl
  | cons x l ih =>
      obtain ⟨-, hnext, hl⟩ := h
      have hrest := ih hl fun z hz ↦ hlive z (List.mem_cons_of_mem x hz)
      have htest : (sq.strICmp (s.elem x).pKey pKey = 0) = (sameKey sq s pKey x = true) := by
        rw [sq.strICmp_eq_zero, sameKey, decide_eq_true_eq]
        rfl
      have hread := Hash.read_of_live (hlive x List.mem_cons_self)
      simp only [List.length_cons, List.head?_cons, Option.some_or, findLoop, hread, bind,
        Except.bind, htest]
      by_cases hx : sameKey sq s pKey x = true
      · rw [if_pos hx, List.find?_cons_of_pos hx]
        rfl
      · rw [if_neg hx, List.find?_cons_of_neg hx, ← hrest, ← hnext]

omit [DecidableEq ι] in
theorem sameKey_slot (hx : sameKey sq s pKey x = true) :
    slotOf sq s x = (strHash sq pKey).toNat % s.htsize := by
  rw [slotOf, strHash_congr (by simpa [sameKey] using hx)]

/-- The bucket of a key, 0 without a table. -/
def keySlot (sq : Sqlite) (s : Hash ι δ) (pKey : List UInt8) : ℕ :=
  if s.ht.isSome then (strHash sq pKey).toNat % s.htsize else 0

theorem countDown_natCast (n : ℕ) : countDown n = .ok n := by
  rw [countDown, if_neg (by omega), Int.toNat_natCast]

/-- The search finds the first element with the key, if there is one. -/
theorem findElementWithHash_spec (ha : Arranged sq s l) (hcount : s.count = l.length)
    (hlen : l.length < 2 ^ 31) (pKey : List UInt8) :
    findElementWithHash sq s pKey =
      .ok (l.find? (sameKey sq s pKey), keySlot sq s pKey) := by
  cases hht : s.ht with
  | none =>
      have hloop := findLoop_spec sq pKey ha.threaded ha.live
      rw [Option.or_none, ← ha.first, ← hcount] at hloop
      have hint : InSigned 32 s.count := by
        rw [InSigned, hcount]
        omega
      have hdown : countDown (wrapSigned 32 s.count) = .ok s.count := by
        rw [wrapSigned_of_inSigned (by omega) hint, countDown_natCast]
      rw [findElementWithHash, keySlot, hht]
      dsimp only
      rw [hdown]
      simp only [bind, Except.bind, hloop, Option.isSome_none, Bool.false_eq_true, if_false,
        pure, Except.pure]
  | some bs =>
      have hb := ha.buckets bs hht
      obtain ⟨b, hget, hbcount, hchain⟩ :=
        hb.bucket _ (Nat.mod_lt (strHash sq pKey).toNat hb.pos)
      have hmod : hashMod sq pKey s.htsize = .ok ((strHash sq pKey).toNat % s.htsize) :=
        if_neg (Nat.ne_of_gt hb.pos)
      have hread : s.bucket ((strHash sq pKey).toNat % s.htsize) = .ok b := by
        simp [Hash.bucket, hht, hget]
      have hdown : countDown b.count =
          .ok (l.filter (slotOf sq s · = (strHash sq pKey).toNat % s.htsize)).length := by
        rw [hbcount, countDown_natCast]
      -- an element with the key is in this bucket
      have hfind : (l.filter (slotOf sq s · = (strHash sq pKey).toNat % s.htsize)).find?
          (sameKey sq s pKey) = l.find? (sameKey sq s pKey) := by
        rw [List.find?_filter]
        congr 1
        funext x
        cases hx : sameKey sq s pKey x with
        | true => simp [sameKey_slot hx]
        | false => simp
      have hloop : findLoop sq s pKey
          (l.filter (slotOf sq s · = (strHash sq pKey).toNat % s.htsize)).length b.chain =
          .ok (l.find? (sameKey sq s pKey)) := by
        rw [← hfind]
        obtain ⟨l₁, l₂, hl, -⟩ :=
          hb.grouped.exists_block ((strHash sq pKey).toNat % s.htsize)
        have hthread := ha.threaded
        rw [hl, List.append_assoc, Threaded.append_iff, Threaded.append_iff] at hthread
        cases hblock : l.filter (slotOf sq s · = (strHash sq pKey).toNat % s.htsize) with
        | nil => rfl
        | cons y g =>
            have hne : b.count ≠ 0 := by
              rw [hbcount, hblock, List.length_cons]
              omega
            have hhead := hchain hne
            rw [hblock] at hthread hhead
            have hsegment := findLoop_spec sq pKey hthread.2.1 fun z hz ↦ by
              have hzf : z ∈ l.filter _ := hblock ▸ hz
              exact ha.live z (List.mem_filter.1 hzf).1
            rw [List.head?_cons] at hhead
            rw [hhead]
            exact hsegment
      simp only [findElementWithHash, hht, hmod, bind, Except.bind, hread, hdown, hloop, keySlot,
        Option.isSome_some, if_true, pure, Except.pure]

/-- The loop of `rehash`, where `r` is still to come. -/
theorem rehashLoop_spec {n : ℕ} (ha : Arranged sq s l) (hht : s.ht.isSome) (hn : s.htsize = n)
    (hr : Chain (fun x ↦ (s.elem x).next) p r) (hrl : ∀ x ∈ r, x ∉ l ∧ x ∈ s.live)
    (hlen : l.length + r.length < 2 ^ 31) (hfuel : r.length < fuel) :
    ∃ s' l', rehashLoop sq n fuel s p = .ok s' ∧ Arranged sq s' l' ∧ l'.Perm (l ++ r) ∧
      Relinked s s' (l ++ r) ∧ s'.ht.isSome := by
  induction r generalizing s l p fuel with
  | nil =>
      obtain ⟨fuel, rfl⟩ : ∃ f, fuel = f + 1 := ⟨fuel - 1, by omega⟩
      obtain rfl : p = none := hr
      exact ⟨s, l, rfl, ha, by simp, ⟨rfl, rfl, rfl, fun _ ↦ rfl, fun _ ↦ rfl, fun _ _ ↦ rfl⟩, hht⟩
  | cons x r ih =>
      obtain ⟨fuel, rfl⟩ : ∃ f, fuel = f + 1 := ⟨fuel - 1, by omega⟩
      have hnodup := List.nodup_cons.1 hr.nodup
      obtain ⟨rfl, hrest⟩ := hr
      obtain ⟨hxl, hxs⟩ := hrl x List.mem_cons_self
      rw [List.length_cons] at hlen hfuel
      obtain ⟨bs, hbs⟩ := Option.isSome_iff_exists.1 hht
      have hpos : n ≠ 0 := Nat.ne_of_gt (hn ▸ (ha.buckets bs hbs).pos)
      have hmod : hashMod sq (s.elem x).pKey n = .ok (slotOf sq s x) := by
        rw [hashMod, if_neg hpos, slotOf, hn]
      obtain ⟨s₁, l₁, hs₁, ha₁, hl₁, hr₁, hht₁⟩ := insertElement_spec ha hxl hxs (by omega)
      rw [hbs, Option.map_some] at hs₁
      -- the elements to come are linked as before
      have hnew : ∀ z ∈ r, z ∉ x :: l := by
        intro z hz hzl
        rcases List.mem_cons.1 hzl with rfl | hzl
        · exact hnodup.1 hz
        · exact (hrl z (List.mem_cons_of_mem x hz)).1 hzl
      have hrest₁ : Chain (fun x ↦ (s₁.elem x).next) (s.elem x).next r :=
        hrest.congr fun z hz ↦ hr₁.next z (hnew z hz)
      have hlen₁ : l₁.length = l.length + 1 := hl₁.length_eq
      have hfuel' : r.length < fuel := by omega
      obtain ⟨s', l', hs', ha', hl', hr', hht'⟩ := ih ha₁ (hht₁ ▸ hht)
        (hr₁.htsize.trans hn) hrest₁
        (fun z hz ↦ ⟨fun hzl ↦ hnew z hz (hl₁.mem_iff.1 hzl),
          hr₁.live ▸ (hrl z (List.mem_cons_of_mem x hz)).2⟩) (by omega) hfuel'
      have hperm : (l₁ ++ r).Perm (l ++ x :: r) := (hl₁.append_right r).trans List.perm_middle.symm
      refine ⟨s', l', ?_, ha', hl'.trans hperm, ?_, hht'⟩
      · simp only [rehashLoop, Hash.read_of_live hxs, bind, Except.bind, hmod, hs₁, hs']
      · apply (hr₁.mono _).trans (hr'.mono hperm.subset)
        intro z hz
        rcases List.mem_cons.1 hz with rfl | hz
        · exact List.mem_append_right _ List.mem_cons_self
        · exact List.mem_append_left _ hz

/-- What `rehash` does not change. -/
structure Kept (s s' : Hash ι δ) : Prop where
  live : s'.live = s.live
  count : s'.count = s.count
  data : ∀ z, (s'.elem z).data = (s.elem z).data
  pKey : ∀ z, (s'.elem z).pKey = (s.elem z).pKey

/-- The block that `rehash` gets, if it gets one. -/
def newBlock (sq : Sqlite) (mem : Malloc ι) (htsize newSize : ℕ) : Option ℕ :=
  (softLimited sq htsize newSize).bind fun newSize ↦ mem.size (newSize * sizeofHt)

omit [DecidableEq ι] in
/-- There is at least one bucket in the block, and without a limit as many as
were asked for. -/
theorem newBlock_spec {mem : Malloc ι} {htsize newSize size : ℕ}
    (h : newBlock sq mem htsize newSize = some size) :
    0 < size / sizeofHt % 2 ^ 32 ∧ size / sizeofHt % 2 ^ 32 < 2 ^ 27 ∧
      (sq.mallocSoftLimit = 0 → newSize ≤ size / sizeofHt % 2 ^ 32) := by
  obtain ⟨n, hn, hsize⟩ := Option.bind_eq_some_iff.1 h
  obtain ⟨hpos, hle, hlt⟩ := mem.size_spec _ _ hsize
  rw [sizeofHt] at hpos hle ⊢
  refine ⟨by omega, by omega, fun hlimit ↦ ?_⟩
  rw [softLimited, hlimit, if_neg (lt_irrefl 0)] at hn
  obtain rfl := Option.some.inj hn
  omega

/-- `rehash` either does nothing or arranges the same elements in new
buckets. -/
theorem rehash_spec (mem : Malloc ι) (newSize : ℕ) (ha : Arranged sq s l)
    (hlen : l.length < 2 ^ 31) :
    (rehash sq mem s newSize = .ok (s, false) ∧ newBlock sq mem s.htsize newSize = none) ∨
      ∃ s' l', rehash sq mem s newSize = .ok (s', true) ∧ Arranged sq s' l' ∧ l'.Perm l ∧
        Kept s s' ∧ s'.ht.isSome ∧ s'.htsize < 2 ^ 27 ∧
        (sq.mallocSoftLimit = 0 → newSize ≤ s'.htsize) := by
  cases hsize : newBlock sq mem s.htsize newSize with
  | none =>
      rw [newBlock] at hsize
      exact .inl ⟨by rw [rehash, hsize], rfl⟩
  | some size =>
      right
      obtain ⟨hbuckets, hsmall, hlarge⟩ := newBlock_spec hsize
      have hfresh : Arranged sq { s with
          ht := some (List.replicate (size / sizeofHt % 2 ^ 32) ⟨0, none⟩),
          htsize := size / sizeofHt % 2 ^ 32, first := none } [] := by
        refine ⟨⟨rfl, trivial, List.nodup_nil, fun x hx ↦ absurd hx List.not_mem_nil⟩,
          fun bs hbs ↦ ?_⟩
        obtain rfl := Option.some.inj hbs
        refine ⟨List.length_replicate, hbuckets, trivial, fun h hh ↦ ⟨⟨0, none⟩, ?_, rfl, ?_⟩⟩
        · rw [List.getElem?_replicate, if_pos hh]
        · exact fun hne ↦ absurd rfl hne
      have hfuel : l.length < s.live.length + 1 := Nat.lt_succ_of_le
        (List.Nodup.subperm ha.nodup fun x hx ↦ ha.live x hx).length_le
      obtain ⟨s', l', hs', ha', hl', hr', hht'⟩ := rehashLoop_spec
        (p := s.first) (r := l) hfresh rfl rfl (ha.first ▸ ha.threaded.chain)
        (fun x hx ↦ ⟨List.not_mem_nil, ha.live x hx⟩) (by simpa using hlen) hfuel
      have hsize' : s'.htsize = size / sizeofHt % 2 ^ 32 := hr'.htsize
      refine ⟨s', l', ?_, ha', hl', ⟨hr'.live, hr'.count, hr'.data, hr'.pKey⟩, hht',
        hsize' ▸ hsmall, hsize' ▸ hlarge⟩
      rw [newBlock] at hsize
      rw [rehash, hsize]
      simp only [hs', bind, Except.bind, pure, Except.pure]

/-- The loop of `sqlite3HashClear` frees the elements it meets. -/
theorem clearLoop_spec (hl : Chain (fun x ↦ (s.elem x).next) p l) (hlive : ∀ x ∈ l, x ∈ s.live)
    (hfuel : l.length < fuel) :
    clearLoop fuel s p = .ok { s with live := s.live.diff l } := by
  induction l generalizing s p fuel with
  | nil =>
      obtain ⟨fuel, rfl⟩ : ∃ f, fuel = f + 1 := ⟨fuel - 1, by omega⟩
      obtain rfl : p = none := hl
      rfl
  | cons x l ih =>
      obtain ⟨fuel, rfl⟩ : ∃ f, fuel = f + 1 := ⟨fuel - 1, by omega⟩
      have hnodup := List.nodup_cons.1 hl.nodup
      obtain ⟨rfl, hrest⟩ := hl
      have hxs := hlive x List.mem_cons_self
      rw [List.length_cons] at hfuel
      have hfree : s.free x = .ok { s with live := s.live.erase x } := if_pos hxs
      have hfuel' : l.length < fuel := by omega
      have hloop := ih (s := { s with live := s.live.erase x }) hrest
        (fun z hz ↦ (List.mem_erase_of_ne (ne_of_mem_of_not_mem hz hnodup.1)).2
          (hlive z (List.mem_cons_of_mem x hz))) hfuel'
      simp only [clearLoop, Hash.read_of_live hxs, bind, Except.bind, hfree, hloop,
        List.diff_cons]

/-- The table is empty afterwards, and its elements are freed. -/
theorem sqlite3HashClear_spec (ha : OnList s l) (hlive : s.live.Perm l) :
    sqlite3HashClear s = .ok (sqlite3HashInit { s with live := [] }) := by
  have hfuel : l.length < s.live.length + 1 := by
    rw [hlive.length_eq]
    omega
  have hloop := clearLoop_spec (s := { s with first := none, ht := none, htsize := 0 })
    (p := s.first) (ha.first ▸ ha.threaded.chain) ha.live hfuel
  have hnil : s.live.diff l = [] := by
    rw [List.eq_nil_iff_forall_not_mem]
    intro z hz
    have hz' := (List.Nodup.mem_sdiff_iff (hlive.nodup_iff.2 ha.nodup)).1 hz
    exact hz'.2 (hlive.mem_iff.1 hz'.1)
  simp only [sqlite3HashClear, hloop, bind, Except.bind, hnil, pure, Except.pure]
  rfl

end Cocool.HashTable
