import Cocool.HashTable.Table
import Cocool.Lib.DList
import Cocool.Lib.Grouped

/-!
# The list and the buckets

All elements are on one doubly linked list, and the elements of a bucket
stand on it next to each other.  Linking an element in and taking one out
keep this.
-/

namespace Cocool.HashTable

open Lib

variable {ι δ : Type} [DecidableEq ι] {s s' s'' : Hash ι δ} {x y z : ι} {p q : Option ι}
  {l l₁ l₂ : List ι} {h : ℕ} {b : Ht ι} {sq : Sqlite} {k : List UInt8} {d : δ}

namespace Hash

@[simp] theorem withNext_next :
    ((s.withNext x q).elem z).next = if z = x then q else (s.elem z).next := by
  by_cases hz : z = x <;> simp [withNext, hz]

@[simp] theorem withNext_prev : ((s.withNext x q).elem z).prev = (s.elem z).prev := by
  by_cases hz : z = x <;> simp [withNext, hz]

@[simp] theorem withNext_data : ((s.withNext x q).elem z).data = (s.elem z).data := by
  by_cases hz : z = x <;> simp [withNext, hz]

@[simp] theorem withNext_pKey : ((s.withNext x q).elem z).pKey = (s.elem z).pKey := by
  by_cases hz : z = x <;> simp [withNext, hz]

@[simp] theorem withPrev_next : ((s.withPrev x q).elem z).next = (s.elem z).next := by
  by_cases hz : z = x <;> simp [withPrev, hz]

@[simp] theorem withPrev_prev :
    ((s.withPrev x q).elem z).prev = if z = x then q else (s.elem z).prev := by
  by_cases hz : z = x <;> simp [withPrev, hz]

@[simp] theorem withPrev_data : ((s.withPrev x q).elem z).data = (s.elem z).data := by
  by_cases hz : z = x <;> simp [withPrev, hz]

@[simp] theorem withPrev_pKey : ((s.withPrev x q).elem z).pKey = (s.elem z).pKey := by
  by_cases hz : z = x <;> simp [withPrev, hz]

@[simp] theorem withEntry_next : ((s.withEntry x k d).elem z).next = (s.elem z).next := by
  by_cases hz : z = x <;> simp [withEntry, hz]

@[simp] theorem withEntry_prev : ((s.withEntry x k d).elem z).prev = (s.elem z).prev := by
  by_cases hz : z = x <;> simp [withEntry, hz]

@[simp] theorem withEntry_data :
    ((s.withEntry x k d).elem z).data = if z = x then some d else (s.elem z).data := by
  by_cases hz : z = x <;> simp [withEntry, hz]

@[simp] theorem withEntry_pKey :
    ((s.withEntry x k d).elem z).pKey = if z = x then k else (s.elem z).pKey := by
  by_cases hz : z = x <;> simp [withEntry, hz]

@[simp] theorem withNext_live : (s.withNext x q).live = s.live := rfl

@[simp] theorem withPrev_live : (s.withPrev x q).live = s.live := rfl

@[simp] theorem withNext_first : (s.withNext x q).first = s.first := rfl

@[simp] theorem withPrev_first : (s.withPrev x q).first = s.first := rfl

omit [DecidableEq ι] in
@[simp] theorem withFirst_elem : (s.withFirst q).elem = s.elem := rfl

omit [DecidableEq ι] in
@[simp] theorem withFirst_live : (s.withFirst q).live = s.live := rfl

omit [DecidableEq ι] in
@[simp] theorem withFirst_first : (s.withFirst q).first = q := rfl

theorem read_of_live (hx : x ∈ s.live) : s.read x = .ok (s.elem x) := if_pos hx

theorem setNext_of_live (hx : x ∈ s.live) : s.setNext x q = .ok (s.withNext x q) := if_pos hx

theorem setPrev_of_live (hx : x ∈ s.live) : s.setPrev x q = .ok (s.withPrev x q) := if_pos hx

end Hash

/-- The two memories differ in links only, and in none of an element that is
not in `l`. -/
structure Relinked (s s' : Hash ι δ) (l : List ι) : Prop where
  live : s'.live = s.live
  htsize : s'.htsize = s.htsize
  count : s'.count = s.count
  data : ∀ z, (s'.elem z).data = (s.elem z).data
  pKey : ∀ z, (s'.elem z).pKey = (s.elem z).pKey
  next : ∀ z ∉ l, (s'.elem z).next = (s.elem z).next

namespace Relinked

omit [DecidableEq ι]

theorem trans (h : Relinked s s' l) (h' : Relinked s' s'' l) : Relinked s s'' l where
  live := h'.live.trans h.live
  htsize := h'.htsize.trans h.htsize
  count := h'.count.trans h.count
  data z := (h'.data z).trans (h.data z)
  pKey z := (h'.pKey z).trans (h.pKey z)
  next z hz := (h'.next z hz).trans (h.next z hz)

theorem mono (h : Relinked s s' l₁) (hl : l₁ ⊆ l₂) : Relinked s s' l₂ :=
  { h with next := fun z hz ↦ h.next z fun hz₁ ↦ hz (hl hz₁) }

end Relinked

/-- `x` has come between `p` and `q`. -/
structure LinkedIn (s s' : Hash ι δ) (x : ι) (p q : Option ι) : Prop where
  ht : s'.ht = s.ht
  first : s'.first = if p = none then some x else s.first
  next_self : (s'.elem x).next = q
  prev_self : (s'.elem x).prev = p
  next : ∀ z, z ≠ x → (s'.elem z).next = if p = some z then some x else (s.elem z).next
  prev : ∀ z, z ≠ x → (s'.elem z).prev = if q = some z then some x else (s.elem z).prev
  relinked : ∀ l, x ∈ l → (∀ z, p = some z → z ∈ l) → Relinked s s' l

theorem linkElement_front (hx : x ∈ s.live) (hq : ∀ z, s.first = some z → z ∈ s.live ∧ z ≠ x) :
    ∃ s', linkElement s none x = .ok s' ∧ LinkedIn s s' x none s.first := by
  cases hfirst : s.first with
  | none =>
      refine ⟨((s.withNext x none).withPrev x none).withFirst (some x), ?_, rfl, rfl, by simp,
        by simp, fun z hz ↦ by simp [hz], fun z hz ↦ by simp [hz], fun l hxl _ ↦ ?_⟩
      · simp only [linkElement, Hash.setNext_of_live hx, Hash.linkBack, hfirst, bind,
          Except.bind, Hash.withNext_first, Hash.setPrev_of_live (s := s.withNext x none) hx]
        rfl
      · refine ⟨rfl, rfl, rfl, fun z ↦ by simp, fun z ↦ by simp, fun z hz ↦ ?_⟩
        simp [(ne_of_mem_of_not_mem hxl hz).symm]
  | some y =>
      obtain ⟨hy, hyx⟩ := hq y hfirst
      refine ⟨(((s.withNext x (some y)).withPrev y (some x)).withPrev x none).withFirst (some x),
        ?_, rfl, rfl, by simp, by simp, fun z hz ↦ by simp [hz],
        fun z hz ↦ by simp [hz, eq_comm], fun l hxl _ ↦ ?_⟩
      · simp only [linkElement, Hash.setNext_of_live hx, Hash.linkBack, hfirst, bind,
          Except.bind, Hash.withNext_first,
          Hash.setPrev_of_live (s := s.withNext x (some y)) hy,
          Hash.setPrev_of_live (s := (s.withNext x (some y)).withPrev y (some x)) hx]
        rfl
      · refine ⟨rfl, rfl, rfl, fun z ↦ by simp, fun z ↦ by simp, fun z hz ↦ ?_⟩
        simp [(ne_of_mem_of_not_mem hxl hz).symm]

theorem linkElement_before (hx : x ∈ s.live) (hy : y ∈ s.live) (hyx : y ≠ x)
    (hp : ∀ z, (s.elem y).prev = some z → z ∈ s.live ∧ z ≠ x) :
    ∃ s', linkElement s (some y) x = .ok s' ∧ LinkedIn s s' x (s.elem y).prev (some y) := by
  have hpair (p : Option ι) : (((s.withNext x (some y)).withPrev x p).elem y).prev =
      (s.elem y).prev := by simp [hyx]
  cases hprev : (s.elem y).prev with
  | none =>
      refine ⟨(((s.withNext x (some y)).withPrev x none).withFirst (some x)).withPrev y (some x),
        ?_, rfl, rfl, by simp, by simp [hyx.symm], fun z hz ↦ by simp [hz],
        fun z hz ↦ by simp [hz, eq_comm], fun l hxl _ ↦ ?_⟩
      · simp only [linkElement, Hash.setNext_of_live hx, bind, Except.bind, Hash.withNext_prev,
          Hash.read_of_live (s := s.withNext x (some y)) hy, hprev,
          Hash.setPrev_of_live (s := s.withNext x (some y)) hx, hpair, Hash.linkFrom,
          Hash.read_of_live (s := (s.withNext x (some y)).withPrev x none) hy]
        exact Hash.setPrev_of_live hy
      · refine ⟨rfl, rfl, rfl, fun z ↦ by simp, fun z ↦ by simp, fun z hz ↦ ?_⟩
        simp [(ne_of_mem_of_not_mem hxl hz).symm]
  | some w =>
      obtain ⟨hw, hwx⟩ := hp w hprev
      refine ⟨(((s.withNext x (some y)).withPrev x (some w)).withNext w (some x)).withPrev y
        (some x), ?_, rfl, rfl, by simp [hwx.symm], by simp [hyx.symm],
        fun z hz ↦ by simp [hz, eq_comm], fun z hz ↦ by simp [hz, eq_comm], fun l hxl hpl ↦ ?_⟩
      · simp only [linkElement, Hash.setNext_of_live hx, bind, Except.bind, Hash.withNext_prev,
          Hash.read_of_live (s := s.withNext x (some y)) hy, hprev,
          Hash.setPrev_of_live (s := s.withNext x (some y)) hx, hpair, Hash.linkFrom,
          Hash.read_of_live (s := (s.withNext x (some y)).withPrev x (some w)) hy,
          Hash.setNext_of_live (s := (s.withNext x (some y)).withPrev x (some w)) hw]
        exact Hash.setPrev_of_live hy
      · refine ⟨rfl, rfl, rfl, fun z ↦ by simp, fun z ↦ by simp, fun z hz ↦ ?_⟩
        simp [(ne_of_mem_of_not_mem hxl hz).symm, (ne_of_mem_of_not_mem (hpl w rfl) hz).symm]

/-- `first` leads to the elements of `l`, linked in this order. -/
structure OnList (s : Hash ι δ) (l : List ι) : Prop where
  first : s.first = l.head?
  threaded : Threaded (fun x ↦ (s.elem x).next) (fun x ↦ (s.elem x).prev) none l none
  nodup : l.Nodup
  live : ∀ x ∈ l, x ∈ s.live

theorem OnList.insert (hl : OnList s (l₁ ++ l₂)) (hx : x ∉ l₁ ++ l₂) (hxs : x ∈ s.live)
    (hin : LinkedIn s s' x l₁.getLast? l₂.head?) : OnList s' (l₁ ++ x :: l₂) := by
  have hn : (l₁ ++ x :: l₂).Nodup := List.nodup_middle.2 (List.nodup_cons.2 ⟨hx, hl.nodup⟩)
  have hsame : s'.live = s.live := (hin.relinked (l₁ ++ x :: l₂) (by simp) fun z hz ↦
    List.mem_append_left _ (List.mem_of_getLast? hz)).live
  refine ⟨?_, ?_, hn, fun z hz ↦ ?_⟩
  · rw [hin.first, hl.first]
    rcases l₁ with _ | ⟨a, l₁⟩
    · rfl
    · simp
  · apply hl.threaded.insert hn
    · exact hin.next_self.trans (Option.or_none).symm
    · exact hin.prev_self.trans (Option.or_none).symm
    · exact hin.next
    · exact hin.prev
  · rw [hsame]
    rcases List.mem_append.1 hz with hz | hz
    · exact hl.live z (List.mem_append_left _ hz)
    · rcases List.mem_cons.1 hz with rfl | hz
      · exact hxs
      · exact hl.live z (List.mem_append_right _ hz)

/-- The bucket of an element. -/
def slotOf (sq : Sqlite) (s : Hash ι δ) (x : ι) : ℕ :=
  (strHash sq (s.elem x).pKey).toNat % s.htsize

/-- The buckets divide the list `l` up. -/
structure Bucketed (sq : Sqlite) (s : Hash ι δ) (l : List ι) (bs : List (Ht ι)) : Prop where
  size : bs.length = s.htsize
  pos : 0 < s.htsize
  grouped : Grouped (slotOf sq s) l
  bucket : ∀ h < s.htsize, ∃ b, bs[h]? = some b ∧
    b.count = (l.filter (slotOf sq s · = h)).length ∧
    (b.count ≠ 0 → b.chain = (l.filter (slotOf sq s · = h)).head?)

/-- The list with its buckets, if there are any. -/
structure Arranged (sq : Sqlite) (s : Hash ι δ) (l : List ι) : Prop extends OnList s l where
  buckets : ∀ bs, s.ht = some bs → Bucketed sq s l bs

omit [DecidableEq ι] in
theorem Relinked.slotOf_eq (h : Relinked s s' l) : slotOf sq s' = slotOf sq s := by
  funext x
  rw [slotOf, slotOf, h.pKey, h.htsize]

omit [DecidableEq ι] in
theorem slotOf_lt (hpos : 0 < s.htsize) : slotOf sq s x < s.htsize := Nat.mod_lt _ hpos

omit [DecidableEq ι] in
/-- The bucket of `x` takes it in as its first element. -/
theorem Bucketed.insert {bs : List (Ht ι)} (hb : Bucketed sq s (l₁ ++ l₂) bs)
    (hgroup : Grouped (slotOf sq s) (l₁ ++ x :: l₂))
    (hl₁ : ∀ z ∈ l₁, slotOf sq s z ≠ slotOf sq s x)
    (hcount : b.count = ((l₁ ++ l₂).filter (slotOf sq s · = slotOf sq s x)).length)
    (hr : Relinked s s' l) :
    Bucketed sq s' (l₁ ++ x :: l₂) (bs.set (slotOf sq s x) ⟨b.count + 1, some x⟩) := by
  have hslot : slotOf sq s' = slotOf sq s := hr.slotOf_eq
  refine ⟨?_, hr.htsize ▸ hb.pos, hslot ▸ hgroup, fun k hk ↦ ?_⟩
  · rw [List.length_set, hb.size, hr.htsize]
  rw [hr.htsize] at hk
  rw [hslot]
  by_cases hkx : k = slotOf sq s x
  · have hnil : l₁.filter (slotOf sq s · = slotOf sq s x) = [] := by
      rw [List.filter_eq_nil_iff]
      exact fun z hz hzx ↦ hl₁ z hz (by simpa using hzx)
    have hfilter : (l₁ ++ x :: l₂).filter (slotOf sq s · = slotOf sq s x) =
        x :: (l₁ ++ l₂).filter (slotOf sq s · = slotOf sq s x) := by
      rw [List.filter_append, List.filter_append, hnil, List.filter_cons_of_pos (by simp)]
      rfl
    rw [hkx, hfilter]
    refine ⟨_, List.getElem?_set_self (hb.size ▸ slotOf_lt hb.pos), ?_, fun _ ↦ rfl⟩
    rw [hcount, List.length_cons, Nat.cast_add, Nat.cast_one]
  · obtain ⟨b', hb', hcount', hchain⟩ := hb.bucket k hk
    have hfilter : (l₁ ++ x :: l₂).filter (slotOf sq s · = k) =
        (l₁ ++ l₂).filter (slotOf sq s · = k) := by
      rw [List.filter_append, List.filter_append, List.filter_cons_of_neg]
      simpa using Ne.symm hkx
    rw [hfilter]
    exact ⟨b', by rwa [List.getElem?_set_ne (Ne.symm hkx)], hcount', hchain⟩

/-- A bucket that took `x` in, and `x` linked in at its place. -/
theorem Arranged.insert {bs : List (Ht ι)} (ha : Arranged sq s (l₁ ++ l₂)) (hht : s.ht = some bs)
    (hx : x ∉ l₁ ++ l₂) (hxs : x ∈ s.live) (hgroup : Grouped (slotOf sq s) (l₁ ++ x :: l₂))
    (hl₁ : ∀ z ∈ l₁, slotOf sq s z ≠ slotOf sq s x)
    (hcount : b.count = ((l₁ ++ l₂).filter (slotOf sq s · = slotOf sq s x)).length)
    (hin : LinkedIn (s.setBucket (slotOf sq s x) ⟨b.count + 1, some x⟩) s' x l₁.getLast?
      l₂.head?) :
    Arranged sq s' (l₁ ++ x :: l₂) ∧ Relinked s s' (x :: (l₁ ++ l₂)) ∧
      s'.ht.isSome = s.ht.isSome := by
  have hon : OnList (s.setBucket (slotOf sq s x) ⟨b.count + 1, some x⟩) (l₁ ++ l₂) :=
    ⟨ha.first, ha.threaded, ha.nodup, ha.live⟩
  have hr₁ := hin.relinked (x :: (l₁ ++ l₂)) List.mem_cons_self fun z hz ↦
    List.mem_cons_of_mem x (List.mem_append_left _ (List.mem_of_getLast? hz))
  have hr : Relinked s s' (x :: (l₁ ++ l₂)) := ⟨hr₁.live, hr₁.htsize, hr₁.count, hr₁.data,
    hr₁.pKey, hr₁.next⟩
  have hht' : s'.ht = some (bs.set (slotOf sq s x) ⟨b.count + 1, some x⟩) := by
    rw [hin.ht, Hash.setBucket, hht]
    rfl
  refine ⟨⟨hon.insert hx hxs hin, fun bs' hbs' ↦ ?_⟩, hr, by rw [hht', hht]; rfl⟩
  obtain rfl := Option.some.inj (hht'.symm.trans hbs')
  exact (ha.buckets bs hht).insert hgroup hl₁ hcount hr

/-- `insertElement` puts an allocated element on the list, in the bucket of
its key. -/
theorem insertElement_spec (ha : Arranged sq s l) (hx : x ∉ l) (hxs : x ∈ s.live)
    (hlen : l.length + 1 < 2 ^ 31) :
    ∃ s' l', insertElement s (s.ht.map fun _ ↦ slotOf sq s x) x = .ok s' ∧ Arranged sq s' l' ∧
      l'.Perm (x :: l) ∧ Relinked s s' (x :: l) ∧ s'.ht.isSome = s.ht.isSome := by
  have hfront (s₁ : Hash ι δ) (hs₁ : s₁.first = s.first) (hlive : s₁.live = s.live) :
      ∃ s', linkElement s₁ none x = .ok s' ∧ LinkedIn s₁ s' x none l.head? := by
    have hlink := linkElement_front (s := s₁) (x := x) (hlive ▸ hxs) fun z hz ↦ by
      rw [hs₁, ha.first] at hz
      have hzl := List.mem_of_mem_head? hz
      exact ⟨hlive ▸ ha.live z hzl, ne_of_mem_of_not_mem hzl hx⟩
    rwa [hs₁, ha.first] at hlink
  cases hht : s.ht with
  | none =>
      obtain ⟨s', hs', hin⟩ := hfront s rfl rfl
      have hr : Relinked s s' (x :: l) := hin.relinked _ List.mem_cons_self nofun
      have hon : OnList s ([] ++ l) := ha.toOnList
      refine ⟨s', x :: l, ?_, ⟨hon.insert hx hxs hin, ?_⟩, .refl _, hr, ?_⟩
      · simp only [insertElement, Option.map_none, enterBucket, bind, Except.bind, hs']
      · intro bs hbs
        rw [hin.ht, hht] at hbs
        cases hbs
      · rw [hin.ht, hht]
  | some bs =>
      have hb := ha.buckets bs hht
      obtain ⟨b, hget, hcount, hchain⟩ := hb.bucket (slotOf sq s x) (slotOf_lt hb.pos)
      have hread : s.bucket (slotOf sq s x) = .ok b := by simp [Hash.bucket, hht, hget]
      have hint : InSigned 32 (b.count + 1) := by
        have hle := List.length_filter_le (slotOf sq s · = slotOf sq s x) l
        rw [InSigned, hcount]
        omega
      cases hblock : l.filter (slotOf sq s · = slotOf sq s x) with
      | nil =>
          have hnew : ∀ z ∈ l, slotOf sq s z ≠ slotOf sq s x := fun z hz hzx ↦
            (List.filter_eq_nil_iff.1 hblock) z hz (by simpa using hzx)
          have hzero : b.count = 0 := by rw [hcount, hblock]; rfl
          obtain ⟨s', hs', hin⟩ :=
            hfront (s.setBucket (slotOf sq s x) ⟨b.count + 1, some x⟩) rfl rfl
          have ha₀ : Arranged sq s ([] ++ l) := ha
          obtain ⟨ha', hr, hsome⟩ := ha₀.insert hht hx hxs
            (hb.grouped.cons_new hnew) nofun hcount hin
          refine ⟨s', x :: l, ?_, ha', .refl _, hr, hht ▸ hsome⟩
          simp only [insertElement, Option.map_some, enterBucket, hread, bind, Except.bind, hzero,
            ne_eq, not_true_eq_false, if_false, pure, Except.pure]
          rwa [hzero] at hs'
      | cons y g =>
          obtain ⟨l₁, l₂, hl, hl₁⟩ := hb.grouped.exists_block (slotOf sq s x)
          rw [hblock, List.append_assoc, List.cons_append] at hl
          have hy : y ∈ l := hl ▸ by simp
          have hyx : slotOf sq s y = slotOf sq s x := by
            have hyf : y ∈ l.filter (slotOf sq s · = slotOf sq s x) := by simp [hblock]
            simpa using (List.mem_filter.1 hyf).2
          have hne : b.count ≠ 0 := by
            rw [hcount, hblock, List.length_cons]
            omega
          have hhead : b.chain = some y := by rw [hchain hne, hblock]; rfl
          have hprev : (s.elem y).prev = l₁.getLast? := by
            have hthread := ha.threaded
            rw [hl] at hthread
            exact hthread.prev_eq.trans Option.or_none
          subst hl
          obtain ⟨s', hs', hin⟩ := linkElement_before
            (s := s.setBucket (slotOf sq s x) ⟨b.count + 1, some x⟩) hxs (ha.live y hy)
            (ne_of_mem_of_not_mem hy hx) fun z hz ↦ by
              have hz₁ : l₁.getLast? = some z := hprev.symm.trans hz
              have hzl := List.mem_append_left (y :: (g ++ l₂)) (List.mem_of_getLast? hz₁)
              exact ⟨ha.live z hzl, ne_of_mem_of_not_mem hzl hx⟩
          rw [show ((s.setBucket (slotOf sq s x) ⟨b.count + 1, some x⟩).elem y).prev =
            l₁.getLast? from hprev] at hin
          obtain ⟨ha', hr, hsome⟩ := Arranged.insert ha hht hx hxs
            (hb.grouped.insert hyx.symm) hl₁ hcount hin
          refine ⟨s', l₁ ++ x :: y :: (g ++ l₂), ?_, ha', List.perm_middle, hr, hht ▸ hsome⟩
          simp only [insertElement, Option.map_some, enterBucket, hread, bind, Except.bind, hint,
            if_true, hne, ne_eq, not_false_eq_true, hhead, pure, Except.pure]
          exact hs'

/-- The links of `p` and `q` around `x` lead past it. -/
structure LinkedOut (s s' : Hash ι δ) (x : ι) (p q : Option ι) : Prop where
  ht : s'.ht = s.ht
  first : s'.first = if p = none then q else s.first
  next_self : (s'.elem x).next = q
  next : ∀ z, z ≠ x → (s'.elem z).next = if p = some z then q else (s.elem z).next
  prev : ∀ z, z ≠ x → (s'.elem z).prev = if q = some z then p else (s.elem z).prev
  live : s'.live = s.live
  htsize : s'.htsize = s.htsize
  count : s'.count = s.count
  data : ∀ z, (s'.elem z).data = (s.elem z).data
  pKey : ∀ z, (s'.elem z).pKey = (s.elem z).pKey

theorem unlinkElement_spec (hx : x ∈ s.live) (hp : (s.elem x).prev = p) (hq : (s.elem x).next = q)
    (hpx : ∀ z, p = some z → z ∈ s.live ∧ z ≠ x) (hqx : ∀ z, q = some z → z ∈ s.live ∧ z ≠ x) :
    ∃ s', unlinkElement s x = .ok s' ∧ LinkedOut s s' x p q := by
  have hread (s₁ : Hash ι δ) (hlive : s₁.live = s.live) : s₁.read x = .ok (s₁.elem x) :=
    Hash.read_of_live (hlive ▸ hx)
  cases p with
  | none =>
      cases q with
      | none =>
          refine ⟨s.withFirst none, ?_, rfl, rfl, hq, fun z _ ↦ by simp, fun z _ ↦ by simp, rfl,
            rfl, rfl, fun z ↦ rfl, fun z ↦ rfl⟩
          simp only [unlinkElement, hread s rfl, hp, hq, Hash.linkFrom, bind, Except.bind,
            hread (s.withFirst none) rfl, Hash.withFirst_elem, Hash.linkBack]
      | some y =>
          obtain ⟨hy, hyx⟩ := hqx y rfl
          refine ⟨(s.withFirst (some y)).withPrev y none, ?_, rfl, rfl, by simpa using hq,
            fun z _ ↦ by simp, fun z _ ↦ by simp [eq_comm], rfl, rfl, rfl, fun z ↦ by simp,
            fun z ↦ by simp⟩
          simp only [unlinkElement, hread s rfl, hp, hq, Hash.linkFrom, bind, Except.bind,
            hread (s.withFirst (some y)) rfl, Hash.withFirst_elem, Hash.linkBack]
          exact Hash.setPrev_of_live hy
  | some w =>
      obtain ⟨hw, hwx⟩ := hpx w rfl
      cases q with
      | none =>
          refine ⟨s.withNext w none, ?_, rfl, rfl, by simp [hq], fun z _ ↦ by simp [eq_comm],
            fun z _ ↦ by simp, rfl, rfl, rfl, fun z ↦ by simp, fun z ↦ by simp⟩
          simp only [unlinkElement, hread s rfl, hp, hq, Hash.linkFrom, bind, Except.bind,
            Hash.setNext_of_live hw, hread (s.withNext w none) rfl, Hash.withNext_next,
            hwx.symm, if_false, Hash.linkBack]
      | some y =>
          obtain ⟨hy, hyx⟩ := hqx y rfl
          refine ⟨(s.withNext w (some y)).withPrev y (some w), ?_, rfl, rfl,
            by simpa [hwx.symm] using hq, fun z _ ↦ by simp [eq_comm],
            fun z _ ↦ by simp [eq_comm], rfl, rfl, rfl, fun z ↦ by simp, fun z ↦ by simp⟩
          simp only [unlinkElement, hread s rfl, hp, hq, Hash.linkFrom, bind, Except.bind,
            Hash.setNext_of_live hw, hread (s.withNext w (some y)) rfl, Hash.withNext_next,
            Hash.withNext_prev, hwx.symm, if_false, Hash.linkBack]
          exact Hash.setPrev_of_live hy

theorem OnList.unlink (hl : OnList s (l₁ ++ x :: l₂))
    (hout : LinkedOut s s' x l₁.getLast? l₂.head?) : OnList s' (l₁ ++ l₂) := by
  refine ⟨?_, ?_, (List.nodup_cons.1 (List.nodup_middle.1 hl.nodup)).2, fun z hz ↦ ?_⟩
  · rw [hout.first, hl.first]
    rcases l₁ with _ | ⟨a, l₁⟩
    · rfl
    · simp
  · apply hl.threaded.remove hl.nodup
    · simpa using hout.next
    · simpa using hout.prev
  · rw [hout.live]
    apply hl.live
    rw [List.mem_append] at hz
    rw [List.mem_append, List.mem_cons]
    exact hz.imp id .inr

/-- The bucket of `x` without it. -/
def Ht.without (b : Ht ι) (x : ι) (next : Option ι) : Ht ι :=
  ⟨b.count - 1, if b.chain = some x then next else b.chain⟩

/-- `x` leaves its bucket, which has one element less. -/
theorem Bucketed.remove {bs : List (Ht ι)} (hb : Bucketed sq s (l₁ ++ x :: l₂) bs)
    (hn : (l₁ ++ x :: l₂).Nodup) (hget : bs[slotOf sq s x]? = some b)
    (hslot : slotOf sq s' = slotOf sq s) (hsize : s'.htsize = s.htsize) :
    1 ≤ b.count ∧ Bucketed sq s' (l₁ ++ l₂) (bs.set (slotOf sq s x) (b.without x l₂.head?)) := by
  obtain ⟨b', hb', hcount, hchain⟩ := hb.bucket (slotOf sq s x) (slotOf_lt hb.pos)
  obtain rfl : b = b' := Option.some.inj (hget.symm.trans hb')
  have hblock : (l₁ ++ x :: l₂).filter (slotOf sq s · = slotOf sq s x) =
      l₁.filter (slotOf sq s · = slotOf sq s x) ++
        x :: l₂.filter (slotOf sq s · = slotOf sq s x) := by
    rw [List.filter_append, List.filter_cons_of_pos (by simp)]
  rw [hblock] at hcount hchain
  have hpos : 1 ≤ b.count := by
    rw [hcount, List.length_append, List.length_cons]
    omega
  refine ⟨hpos, ?_, hsize ▸ hb.pos, hslot ▸ hb.grouped.remove, fun k hk ↦ ?_⟩
  · rw [List.length_set, hb.size, hsize]
  rw [hsize] at hk
  rw [hslot]
  by_cases hkx : k = slotOf sq s x
  · subst hkx
    refine ⟨_, List.getElem?_set_self (hb.size ▸ hk), ?_, fun hne ↦ ?_⟩
    · simp only [Ht.without, hcount, List.filter_append, List.length_append, List.length_cons]
      omega
    · rw [Ht.without, hchain (by omega), List.filter_append]
      cases hl₁ : l₁.filter (slotOf sq s · = slotOf sq s x) with
      | cons y g =>
          have hy : y ∈ l₁ := by
            have hyf : y ∈ l₁.filter (slotOf sq s · = slotOf sq s x) := by simp [hl₁]
            exact (List.mem_filter.1 hyf).1
          have hyx : y ≠ x := (List.nodup_append.1 hn).2.2 y hy x List.mem_cons_self
          simp [hyx]
      | nil =>
          -- the element behind `x` is the next one of the bucket
          simp only [Ht.without, hcount, hl₁, List.nil_append, List.length_cons] at hne
          have hex : ∃ z ∈ l₂, slotOf sq s z = slotOf sq s x := by
            cases hl₂ : l₂.filter (slotOf sq s · = slotOf sq s x) with
            | nil => simp [hl₂] at hne
            | cons z g =>
                have hz : z ∈ l₂.filter (slotOf sq s · = slotOf sq s x) := by simp [hl₂]
                obtain ⟨hz, hzx⟩ := List.mem_filter.1 hz
                exact ⟨z, hz, by simpa using hzx⟩
          have hnext := hb.grouped.of_append.1 hex
          cases l₂ with
          | nil => simp at hex
          | cons w l₂ => simp [hnext w rfl]
  · obtain ⟨b', hb', hcount', hchain'⟩ := hb.bucket k hk
    have hfilter : (l₁ ++ x :: l₂).filter (slotOf sq s · = k) =
        (l₁ ++ l₂).filter (slotOf sq s · = k) := by
      rw [List.filter_append, List.filter_append, List.filter_cons_of_neg]
      simpa using Ne.symm hkx
    rw [← hfilter]
    exact ⟨b', by rwa [List.getElem?_set_ne (Ne.symm hkx)], hcount', hchain'⟩

end Cocool.HashTable
