import Cocool.Timer.Sift
import Cocool.Lib.Simulation

/-!
# The timer heap as a priority queue

Every call of the heap functions leaves a heap in which the events know their
positions, and which holds the events it should.
-/

namespace Cocool.Timer

open Lib OrderDual

variable {ι : Type} [DecidableEq ι] {s t u : MinHeap ι} {time : ι → Timeval} {b c : ℕ → ι}
  {n h i : ℕ} {e x y : ι} {l : List ι}

/-- The events in the heap with their timeouts. -/
def MinHeap.queued (s : MinHeap ι) (e : ι) : Option Timeval :=
  if s.idx e = -1 then none else some (s.ev e).evTimeout

/-- The array holds the events of `b` as a heap, each of them at the position
it records, and all others record that they are not in it. -/
structure Queue (s : MinHeap ι) (b : ℕ → ι) : Prop where
  room : s.n ≤ s.a
  small : s.n < 2 ^ 31
  seated : Seated s.p s.idx b s.n
  ordered : HeapOrdered (fun x ↦ toDual (s.ev x).evTimeout) b s.n
  outside : ∀ x ∉ cells b s.n, s.idx x = -1

namespace Queue

omit [DecidableEq ι]

theorem nodup (hs : Queue s b) : (cells b s.n).Nodup :=
  List.Nodup.map_on (fun _ hi _ hj hij ↦
    hs.seated.inj (List.mem_range.1 hi) (List.mem_range.1 hj) hij) List.nodup_range

theorem mem_iff (hs : Queue s b) : x ∈ cells b s.n ↔ s.idx x ≠ -1 := by
  constructor
  · intro hx
    obtain ⟨i, hi, rfl⟩ := mem_cells.1 hx
    rw [hs.seated.idx i hi]
    omega
  · intro hx
    by_contra hout
    exact hx (hs.outside x hout)

theorem queued_eq (hs : Queue s b) [Decidable (x ∈ cells b s.n)] :
    s.queued x = if x ∈ cells b s.n then some (s.ev x).evTimeout else none := by
  by_cases hx : x ∈ cells b s.n
  · rw [if_pos hx, MinHeap.queued, if_neg (hs.mem_iff.1 hx)]
  · rw [if_neg hx, MinHeap.queued, if_pos (hs.outside x hx)]

/-- The event at the root has the earliest timeout. -/
theorem root_le (hs : Queue s b) {u : Timeval} (hx : s.queued x = some u) :
    (s.ev (b 0)).evTimeout ≤ u := by
  rw [MinHeap.queued] at hx
  split at hx
  · cases hx
  · next hidx =>
    obtain ⟨i, hi, rfl⟩ := mem_cells.1 (hs.mem_iff.2 hidx)
    obtain rfl := Option.some.inj hx
    exact hs.ordered.le_root hi

theorem read (hs : Queue s b) (hi : i < s.n) : s.read i = .ok (b i) := by
  rw [MinHeap.read, if_pos (hi.trans_le hs.room), hs.seated.entry i hi]

theorem queued_root (hs : Queue s b) (hn : s.n ≠ 0) :
    s.queued (b 0) = some (s.ev (b 0)).evTimeout := by
  have h0 : b 0 ∈ cells b s.n := mem_cells.2 ⟨0, Nat.pos_of_ne_zero hn, rfl⟩
  rw [MinHeap.queued, if_neg (hs.mem_iff.1 h0)]

end Queue

/-- What a call leaves: a heap with the given events, and no event changed but
in its position. -/
structure Leaves (s t : MinHeap ι) (q : ι → Option Timeval) : Prop where
  queue : ∃ b, Queue t b
  queued : t.queued = q
  event : ∀ y, { t.ev y with minHeapIdx := 0 } = { s.ev y with minHeapIdx := 0 }

omit [DecidableEq ι] in
/-- A sift ends in a heap with the events it began with. -/
theorem Heaped.queue (hh : Heaped time t b n) (hn : t.n = n) (hroom : n ≤ t.a)
    (hsmall : n < 2 ^ 31) (htime : ∀ x, (t.ev x).evTimeout = time x)
    (hout : ∀ x ∉ cells b n, t.idx x = -1) :
    ∃ c, Queue t c ∧ (cells c t.n).Perm (cells b n) := by
  obtain ⟨c, hseated, hord, hperm⟩ := hh
  subst hn
  obtain rfl : (fun x ↦ (t.ev x).evTimeout) = time := funext htime
  exact ⟨c, ⟨hroom, hsmall, hseated, hord, fun x hx ↦ hout x fun hb ↦ hx (hperm.mem_iff.2 hb)⟩,
    hperm⟩

omit [DecidableEq ι] in
/-- The comparison with the parent, which the root does not have. -/
theorem belowParent_eq (hs : Sifting time s b n h) :
    belowParent s h (b h) = .ok (decide (0 < h ∧ time (b h) < time (b (parent h)))) := by
  rcases Nat.eq_zero_or_pos h with rfl | h0
  · rfl
  · have hlt := parent_lt h0
    have hpn : parent h < n := hlt.trans hs.hole.lt
    have hsmall := hs.small
    have hparent : wrapUnsigned 32 (((h : ℤ) - 1).tdiv 2) = parent h := by
      have hwrap := wrapUnsigned_of_lt (w := 32) (n := (parent h : ℤ)) (by omega) (by omega)
      have htdiv : ((h : ℤ) - 1).tdiv 2 = parent h := by
        rw [Int.tdiv_eq_ediv_of_nonneg (by omega), parent]
        omega
      rw [htdiv]
      omega
    have hpos : (h : ℤ) > 0 := by omega
    rw [belowParent, if_pos hpos, hparent, hs.read hpn hlt.ne]
    simp only [Functor.map, Except.map, hs.greater, h0, true_and]

/-- Either way the sift ends in a heap. -/
theorem resift_spec {k : ℕ → Timeval} (hn : s.n = n) (hs : Sifting time s b n h)
    (ho : HeapOrdered toDual k n) (hkey : ∀ i, i ≠ h → time (b i) = k i) :
    ∃ t, resift s h (b h) = .ok t ∧ Heaped time t b n ∧ Moved (cells b n) s t := by
  have hlt := hs.hole.lt
  have hsmall := hs.small
  have hindex : wrapUnsigned 32 (h : ℤ) = h := by
    have hwrap := wrapUnsigned_of_lt (w := 32) (n := (h : ℤ)) (by omega) (by omega)
    omega
  have hkey' : ∀ i, i ≠ h → toDual (time (b i)) = toDual (k i) := hkey
  by_cases hup : 0 < h ∧ time (b h) < time (b (parent h))
  · have hu : UpHole (fun x ↦ toDual (time x)) b n h :=
      ho.upHole_of_ne hlt hup.1 hkey' hup.2.le
    obtain ⟨t, ht, hheap⟩ := minHeapShiftUpUnconditional_spec hup.1 hs hu hup.2.le
    refine ⟨t, ?_, hheap⟩
    rw [resift, belowParent_eq hs]
    simp only [bind, Except.bind, hup, and_self, decide_true, if_true, hindex, ht]
  · have hd : DownHole (fun x ↦ toDual (time x)) b n h :=
      ho.downHole_of_ne hlt hkey' fun h0 ↦ not_lt.1 fun hgt ↦ hup ⟨h0, hgt⟩
    obtain ⟨t, ht, hheap⟩ := minHeapShiftDown_spec hn hs hd
    refine ⟨t, ?_, hheap⟩
    rw [resift, belowParent_eq hs]
    simp only [bind, Except.bind, hup, decide_false, Bool.false_eq_true, if_false, hindex, ht]

/-! ## Removing -/

theorem MinHeap.placed_self (hp : s.p i = some e) (hidx : s.idx e = i) (hi : i < 2 ^ 31) :
    s.placed i e = s := by
  have hint : wrapSigned 32 (i : ℤ) = i := by
    apply wrapSigned_of_inSigned (by omega)
    rw [InSigned]
    omega
  have hev : Function.update s.ev e { s.ev e with minHeapIdx := (i : ℤ) } = s.ev := by
    rw [Function.update_eq_self_iff, ← hidx]
    rfl
  have hp' : Function.update s.p i (some e) = s.p := by
    rw [← hp, Function.update_eq_self]
  rw [placed, withIdx, hint]
  simp only [hev, hp']

/-- The last event comes to the position `i`; it may be there already. -/
theorem Queue.resift_last (hs : Queue s b) (hn : s.n = n + 1) (hi : i ≤ n) :
    ∃ t, resift { s with n := n } i (b n) = .ok t ∧
      Heaped (fun x ↦ (s.ev x).evTimeout) t (Function.update b i (b n)) n ∧
      Moved (cells (Function.update b i (b n)) n) { s with n := n } t := by
  have hseated := hs.seated
  have hord := hs.ordered
  have hroom := hs.room
  have hsmall := hs.small
  rw [hn] at hseated hord hroom hsmall
  rcases hi.lt_or_eq with hlt | rfl
  · have hsift : Sifting (fun x ↦ (s.ev x).evTimeout) { s with n := n }
        (Function.update b i (b n)) n i :=
      ⟨hseated.hole_last hlt, Nat.le_of_succ_le hroom, Nat.lt_of_succ_lt hsmall, fun _ ↦ rfl⟩
    obtain ⟨t, ht, hheap⟩ := resift_spec (k := fun j ↦ (s.ev (b j)).evTimeout) rfl hsift
      (hord.mono (Nat.le_succ n)) fun j hj ↦ by rw [Function.update_of_ne hj]
    rw [Function.update_self] at ht
    exact ⟨t, ht, hheap⟩
  · -- the last event stays where it is
    rw [Function.update_eq_self]
    refine ⟨{ s with n := i }, ?_, ⟨b, ⟨fun j hj ↦ hseated.entry j (Nat.lt_succ_of_lt hj),
      fun j hj ↦ hseated.idx j (Nat.lt_succ_of_lt hj)⟩, hord.mono (Nat.le_succ i), .refl _⟩,
      .refl _ _⟩
    have hsift : Sifting (fun x ↦ (s.ev x).evTimeout) s b (i + 1) i :=
      ⟨hseated.hole_self (Nat.lt_succ_self i), hroom, hsmall, fun _ ↦ rfl⟩
    have hstop : ¬ (0 < i ∧ (s.ev (b i)).evTimeout < (s.ev (b (parent i))).evTimeout) :=
      fun h ↦ absurd h.2 (not_lt.2 (hord i h.1 (Nat.lt_succ_self i)))
    have hbelow : belowParent { s with n := i } i (b i) = .ok false := by
      have heq := belowParent_eq hsift
      rw [decide_eq_false hstop] at heq
      exact heq
    have hindex : wrapUnsigned 32 (i : ℤ) = i := by
      have hwrap := wrapUnsigned_of_lt (w := 32) (n := (i : ℤ)) (by omega) (by omega)
      omega
    have hchild : ¬ wrapUnsigned 32 (2 * ((i : ℤ) + 1)) ≤ i := by
      have hwrap := wrapUnsigned_of_lt (w := 32) (n := 2 * ((i : ℤ) + 1)) (by omega) (by omega)
      omega
    have hplace : MinHeap.place { s with n := i } i (b i) = .ok { s with n := i } := by
      have hself : MinHeap.placed { s with n := i } i (b i) = { s with n := i } :=
        MinHeap.placed_self (hseated.entry i (Nat.lt_succ_self i))
          (hseated.idx i (Nat.lt_succ_self i)) (Nat.lt_of_succ_lt hsmall)
      rw [MinHeap.place, if_pos (Nat.lt_of_succ_le hroom), hself]
    simp only [resift, hbelow, bind, Except.bind, Bool.false_eq_true, if_false, hindex,
      minHeapShiftDown, shiftDownLoop, hchild, hplace]

theorem Heaped.withIdx (hh : Heaped time t b n) (hx : x ∉ cells b n) (k : ℤ) :
    Heaped time (t.withIdx x k) b n := by
  obtain ⟨c, hseated, hord, hperm⟩ := hh
  refine ⟨c, ⟨hseated.entry, fun i hi ↦ ?_⟩, hord, hperm⟩
  have hne : c i ≠ x := fun h ↦ hx (hperm.mem_iff.1 (mem_cells.2 ⟨i, hi, h⟩))
  rw [MinHeap.withIdx_idx, Function.update_of_ne hne]
  exact hseated.idx i hi

/-- The event at position `i` is taken out. -/
theorem Queue.take (hs : Queue s b) (hn : s.n = n + 1) (hi : i ≤ n) :
    ∃ t, resift { s with n := n } i (b n) = .ok t ∧ t.n = n ∧ t.a = s.a ∧
      Leaves s (t.withIdx (b i) (-1)) (Function.update s.queued (b i) none) := by
  obtain ⟨t, ht, hheap, hmoved⟩ := hs.resift_last hn hi
  refine ⟨t, ht, hmoved.n, hmoved.a, ?_⟩
  have hperm : (cells b s.n).Perm (b i :: cells (Function.update b i (b n)) n) := by
    rw [hn]
    exact map_update_last_perm b hi
  have hout : b i ∉ cells (Function.update b i (b n)) n :=
    (List.nodup_cons.1 (hperm.nodup_iff.1 hs.nodup)).1
  have hevent : ∀ y, { (t.withIdx (b i) (-1)).ev y with minHeapIdx := 0 } =
      { s.ev y with minHeapIdx := 0 } := fun y ↦
    (MinHeap.withIdx_event t (b i) (-1) y).trans (hmoved.event y)
  have htime : ∀ y, ((t.withIdx (b i) (-1)).ev y).evTimeout = (s.ev y).evTimeout := by
    intro y
    have hev := congrArg Event.evTimeout (hevent y)
    exact hev
  have houtside : ∀ x ∉ cells (Function.update b i (b n)) n,
      (t.withIdx (b i) (-1)).idx x = -1 := by
    intro x hx
    rw [MinHeap.withIdx_idx]
    by_cases hxi : x = b i
    · rw [hxi, Function.update_self]
    · rw [Function.update_of_ne hxi, MinHeap.idx, hmoved.other x hx]
      apply hs.outside
      rw [hperm.mem_iff, List.mem_cons, not_or]
      exact ⟨hxi, hx⟩
  have hroom : n + 1 ≤ t.a := by
    have hle := hs.room
    rwa [hn, ← show t.a = s.a from hmoved.a] at hle
  have hsmall : n + 1 < 2 ^ 31 := hn ▸ hs.small
  obtain ⟨c, hqueue, hcells⟩ := (hheap.withIdx hout (-1)).queue hmoved.n
    (Nat.le_of_succ_le hroom) (Nat.lt_of_succ_lt hsmall) htime houtside
  refine ⟨⟨c, hqueue⟩, ?_, hevent⟩
  funext x
  rw [hqueue.queued_eq, htime]
  by_cases hxi : x = b i
  · rw [hxi, Function.update_self, if_neg fun h ↦ hout (hcells.mem_iff.1 h)]
  · have hmem : x ∈ cells c (t.withIdx (b i) (-1)).n ↔ x ∈ cells b s.n := by
      rw [hcells.mem_iff, hperm.mem_iff, List.mem_cons]
      exact ⟨.inr, fun h ↦ h.resolve_left hxi⟩
    rw [Function.update_of_ne hxi, hs.queued_eq]
    simp only [hmem]

omit [DecidableEq ι] in
theorem Queue.wrap_pred (hs : Queue s b) (hn : s.n = n + 1) :
    wrapUnsigned 32 ((s.n : ℤ) - 1) = n := by
  have hsmall := hs.small
  have hwrap := wrapUnsigned_of_lt (w := 32) (n := (n : ℤ)) (by omega) (by omega)
  rw [hn, Nat.cast_add, Nat.cast_one, Int.add_sub_cancel]
  exact Int.ofNat_inj.1 hwrap

/-- An event in the heap can be erased. -/
theorem Queue.erase (hs : Queue s b) (he : s.idx e ≠ -1) :
    ∃ t, minHeapErase s e = .ok (t, 0) ∧ t.n + 1 = s.n ∧ t.a = s.a ∧
      Leaves s t (Function.update s.queued e none) := by
  obtain ⟨i, hi, rfl⟩ := mem_cells.1 (hs.mem_iff.2 he)
  obtain ⟨n, hn⟩ : ∃ n, s.n = n + 1 := ⟨s.n - 1, by omega⟩
  obtain ⟨t, ht, htn, hta, hleaves⟩ := hs.take hn (by omega : i ≤ n)
  have hlast : MinHeap.read { s with n := n } n = .ok (b n) := hs.read (by omega)
  refine ⟨t.withIdx (b i) (-1), ?_, ?_, hta, hleaves⟩
  · have hidx : s.idx (b i) = i := hs.seated.idx i hi
    have hidx' : MinHeap.idx { s with n := n } (b i) = i := hidx
    rw [hidx] at he
    simp only [minHeapErase, hidx, hidx', he, ne_eq, not_false_eq_true, if_true, hs.wrap_pred hn,
      hlast, bind, Except.bind, ht, pure, Except.pure]
  · rw [hn, ← htn]
    rfl

/-- The earliest event, if there is one. -/
def Earliest (q : ι → Option Timeval) : Option ι → Prop
  | none => ∀ x, q x = none
  | some e => ∃ u, q e = some u ∧ ∀ x v, q x = some v → u ≤ v

theorem Queue.earliest (hs : Queue s b) :
    ∃ top, minHeapTop s = .ok top ∧ Earliest s.queued top ∧ (top = none ↔ s.n = 0) ∧
      (s.n ≠ 0 → top = some (b 0)) := by
  by_cases hn : s.n = 0
  · refine ⟨none, by rw [minHeapTop, if_neg (not_not.2 hn)], fun x ↦ ?_, by simp [hn],
      fun h ↦ absurd hn h⟩
    rw [hs.queued_eq, if_neg]
    simp [cells, hn]
  · refine ⟨some (b 0), ?_, ⟨_, hs.queued_root hn, fun x v hx ↦ hs.root_le hx⟩, by simp [hn],
      fun _ ↦ rfl⟩
    rw [minHeapTop, if_pos hn, hs.read (Nat.pos_of_ne_zero hn)]
    rfl

theorem Queue.pop (hs : Queue s b) :
    ∃ t top, minHeapPop s = .ok (t, top) ∧ Earliest s.queued top ∧ t.n ≤ s.n ∧
      Leaves s t (top.elim s.queued fun e ↦ Function.update s.queued e none) := by
  obtain ⟨top, htop, hfirst, hnone, hsome⟩ := hs.earliest
  by_cases h0 : s.n = 0
  · obtain rfl := hnone.2 h0
    refine ⟨s, none, by rw [minHeapPop, if_neg (not_not.2 h0)], hfirst, le_rfl, ⟨b, hs⟩, rfl,
      fun _ ↦ rfl⟩
  · obtain rfl := hsome h0
    obtain ⟨n, hn⟩ : ∃ n, s.n = n + 1 := ⟨s.n - 1, by omega⟩
    obtain ⟨t, ht, htn, -, hleaves⟩ := hs.take hn (Nat.zero_le n)
    have hlast : MinHeap.read { s with n := n } n = .ok (b n) := hs.read (by omega)
    have hroot : s.read 0 = .ok (b 0) := hs.read (Nat.pos_of_ne_zero h0)
    have hdown : minHeapShiftDown { s with n := n } 0 (b n) = .ok t := ht
    refine ⟨t.withIdx (b 0) (-1), some (b 0), ?_, hfirst, ?_, hleaves⟩
    · simp only [minHeapPop, h0, ne_eq, not_false_eq_true, if_true, hroot, hs.wrap_pred hn, hlast,
        bind, Except.bind, hdown, pure, Except.pure]
    · have hle : t.n ≤ s.n := by omega
      exact hle

/-! ## Adding -/

theorem le_reserved (a n : ℕ) : n ≤ reserved a n := by
  have hle : ∀ c : ℕ, n ≤ if c < n then n else c := by
    intro c
    split
    · exact Nat.le_refl n
    · omega
  exact hle _

/-- The capacity after `event_add_nolock_` or a push asked for room. -/
def grownRoom (room n : ℕ) : ℕ := if room ≤ n then reserved room (n + 1) else room

theorem lt_grownRoom (room n : ℕ) : n < grownRoom room n := by
  rw [grownRoom]
  split
  · exact le_reserved room (n + 1)
  · omega

omit [DecidableEq ι] in
theorem Queue.reserve (hs : Queue s b) (mem : Bool) :
    (∃ t, minHeapReserve s mem (s.n + 1) = (t, 0) ∧ Queue t b ∧ t.ev = s.ev ∧ t.n = s.n ∧
      t.a = grownRoom s.a s.n ∧ (s.a ≤ s.n → mem = true)) ∨
    (mem = false ∧ s.a ≤ s.n ∧ minHeapReserve s mem (s.n + 1) = (s, -1)) := by
  by_cases hroom : s.a ≤ s.n
  · have hgrow : s.a < s.n + 1 := Nat.lt_succ_of_le hroom
    cases mem with
    | false => exact .inr ⟨rfl, hroom, by rw [minHeapReserve, if_pos hgrow]; rfl⟩
    | true =>
        have hlt : s.n < reserved s.a (s.n + 1) := le_reserved s.a (s.n + 1)
        refine .inl ⟨{ s with p := fun i ↦ if i < s.a then s.p i else none,
                              a := reserved s.a (s.n + 1) },
          by rw [minHeapReserve, if_pos hgrow, if_pos rfl], ⟨hlt.le, hs.small,
          ⟨fun i hi ↦ ?_, hs.seated.idx⟩, hs.ordered, hs.outside⟩, rfl, rfl,
          by rw [grownRoom, if_pos hroom], fun _ ↦ rfl⟩
        have hia : i < s.a := hi.trans_le hs.room
        simp only [hia, if_true]
        exact hs.seated.entry i hi
  · have hkeep : ¬ s.a < s.n + 1 := by omega
    exact .inl ⟨s, by rw [minHeapReserve, if_neg hkeep], hs, rfl, rfl,
      by rw [grownRoom, if_neg hroom], fun h ↦ absurd h hroom⟩

/-- A new event goes up from the end of the array. -/
theorem Queue.shiftUp_new (hs : Queue s b) (he : s.idx e = -1) (hroom : s.n < s.a)
    (hlen : s.n + 1 < 2 ^ 31) :
    ∃ t, minHeapShiftUp { s with n := s.n + 1 } s.n e = .ok t ∧ t.n = s.n + 1 ∧ t.a = s.a ∧
      Leaves s t (Function.update s.queued e (some (s.ev e).evTimeout)) := by
  have hnew : ∀ i < s.n, b i ≠ e := fun i hi hie ↦
    hs.mem_iff.1 (mem_cells.2 ⟨i, hi, hie⟩) he
  have hsift : Sifting (fun x ↦ (s.ev x).evTimeout) { s with n := s.n + 1 }
      (Function.update b s.n e) (s.n + 1) s.n :=
    ⟨hs.seated.hole_new hnew, hroom, hlen, fun _ ↦ rfl⟩
  have hord : HeapOrdered (fun x ↦ toDual (s.ev x).evTimeout) (Function.update b s.n e) s.n := by
    intro i h0 hi
    rw [Function.update_of_ne hi.ne, Function.update_of_ne ((parent_lt h0).trans hi).ne]
    exact hs.ordered i h0 hi
  obtain ⟨t, ht, hheap, hmoved⟩ := minHeapShiftUp_spec hsift hord.upHole_last
  rw [Function.update_self] at ht
  have hperm : (cells (Function.update b s.n e) (s.n + 1)).Perm (e :: cells b s.n) := by
    have hlast := map_update_last_perm (Function.update b s.n e) (le_refl s.n)
    rw [Function.update_self, Function.update_idem] at hlast
    refine hlast.trans (.of_eq ?_)
    congr 1
    exact List.map_congr_left fun i hi ↦ Function.update_of_ne (List.mem_range.1 hi).ne _ _
  obtain ⟨c, hqueue, hcells⟩ := hheap.queue hmoved.n (hmoved.a ▸ hroom) hlen hmoved.evTimeout
    fun x hx ↦ by
      rw [MinHeap.idx, hmoved.other x hx]
      apply hs.outside
      exact fun hxb ↦ hx (hperm.mem_iff.2 (List.mem_cons_of_mem e hxb))
  refine ⟨t, ht, hmoved.n, hmoved.a, ⟨c, hqueue⟩, ?_, hmoved.event⟩
  funext x
  rw [hqueue.queued_eq, hmoved.evTimeout]
  have hmem : x ∈ cells c t.n ↔ x = e ∨ x ∈ cells b s.n := by
    rw [hcells.mem_iff, hperm.mem_iff, List.mem_cons]
  by_cases hxe : x = e
  · rw [hxe, Function.update_self, if_pos (hxe ▸ hmem.2 (.inl hxe))]
  · rw [Function.update_of_ne hxe, hs.queued_eq]
    simp only [hmem, hxe, false_or]

omit [DecidableEq ι] in
theorem MinHeap.queued_congr (h : t.ev = s.ev) : t.queued = s.queued := by
  funext x
  rw [queued, queued, idx, idx, h]

theorem Queue.push (hs : Queue s b) (he : s.idx e = -1) (hlen : s.n + 1 < 2 ^ 31) (mem : Bool) :
    (∃ t, minHeapPush s mem e = .ok (t, 0) ∧ t.n = s.n + 1 ∧ t.a = grownRoom s.a s.n ∧
      Leaves s t (Function.update s.queued e (some (s.ev e).evTimeout))) ∨
    (mem = false ∧ s.a ≤ s.n ∧ minHeapPush s mem e = .ok (s, -1)) := by
  have hsucc : wrapUnsigned 32 ((s.n : ℤ) + 1) = s.n + 1 := by
    have hwrap := wrapUnsigned_of_lt (w := 32) (n := ((s.n + 1 : ℕ) : ℤ)) (by omega) (by omega)
    exact Int.ofNat_inj.1 (by simpa using hwrap)
  rcases hs.reserve mem with ⟨t, ht, htq, hev, htn, hta, -⟩ | ⟨hmem, hfull, hfail⟩
  · left
    have he' : t.idx e = -1 := by rw [MinHeap.idx, hev]; exact he
    have hroom : t.n < t.a := by
      rw [htn, hta]
      exact lt_grownRoom s.a s.n
    obtain ⟨u, hu, hun, hua, hleaves⟩ := htq.shiftUp_new he' hroom (htn ▸ hlen)
    have hsucc' : wrapUnsigned 32 ((t.n : ℤ) + 1) = t.n + 1 := htn ▸ hsucc
    refine ⟨u, ?_, by rw [hun, htn], hua.trans hta,
      ⟨hleaves.queue, ?_, fun y ↦ hev ▸ hleaves.event y⟩⟩
    · simp only [minHeapPush, hsucc, ht, ne_eq, not_true_eq_false, if_false, hsucc', hu, bind,
        Except.bind, pure, Except.pure]
    · rw [hleaves.queued, MinHeap.queued_congr hev, hev]
  · refine .inr ⟨hmem, hfull, ?_⟩
    simp only [minHeapPush, hsucc, hfail, ne_eq, Int.reduceNeg, neg_eq_zero,
      one_ne_zero, not_false_eq_true, if_true]

/-! ## Adjusting -/

theorem MinHeap.withTimeout_idx (s : MinHeap ι) (e : ι) (u : Timeval) :
    (s.withTimeout e u).idx = s.idx := by
  funext x
  by_cases hx : x = e
  · simp [idx, withTimeout, hx]
  · simp [idx, withTimeout, hx]

theorem MinHeap.withTimeout_evTimeout (s : MinHeap ι) (e : ι) (u : Timeval) (x : ι) :
    ((s.withTimeout e u).ev x).evTimeout = if x = e then u else (s.ev x).evTimeout := by
  by_cases hx : x = e
  · simp [withTimeout, hx]
  · simp [withTimeout, hx]

/-- The timeout of an event that is not in the heap does not matter. -/
theorem Queue.withTimeout (hs : Queue s b) (he : s.idx e = -1) (u : Timeval) :
    Queue (s.withTimeout e u) b ∧ (s.withTimeout e u).queued = s.queued := by
  have hne : ∀ i < s.n, b i ≠ e := fun i hi hie ↦
    hs.mem_iff.1 (mem_cells.2 ⟨i, hi, hie⟩) he
  refine ⟨⟨hs.room, hs.small, ?_, fun i h0 hi ↦ ?_, ?_⟩, ?_⟩
  · rw [MinHeap.withTimeout_idx]
    exact hs.seated
  · have hi : i < s.n := hi
    simp only [MinHeap.withTimeout_evTimeout, hne i hi, hne _ ((parent_lt h0).trans hi), if_false]
    exact hs.ordered i h0 hi
  · rw [MinHeap.withTimeout_idx]
    exact hs.outside
  · funext x
    rw [MinHeap.queued, MinHeap.queued, MinHeap.withTimeout_idx, MinHeap.withTimeout_evTimeout]
    by_cases hx : x = e
    · rw [hx, if_pos he, if_pos he]
    · rw [if_neg hx]

/-- An event with a new timeout finds its place again, or is pushed. -/
theorem Queue.adjust (hs : Queue s b) (hlen : s.n + 1 < 2 ^ 31) (e : ι) (u : Timeval)
    (mem : Bool) :
    (∃ t, minHeapAdjust (s.withTimeout e u) mem e = .ok (t, 0) ∧ t.n ≤ s.n + 1 ∧
      Leaves (s.withTimeout e u) t (Function.update s.queued e (some u))) ∨
    (s.queued e = none ∧ mem = false ∧
      minHeapAdjust (s.withTimeout e u) mem e = .ok (s.withTimeout e u, -1) ∧
      Leaves (s.withTimeout e u) (s.withTimeout e u) s.queued) := by
  have htime : ((s.withTimeout e u).ev e).evTimeout = u := by
    rw [MinHeap.withTimeout_evTimeout, if_pos rfl]
  by_cases he : s.idx e = -1
  · obtain ⟨hqueue, hqueued⟩ := hs.withTimeout he u
    have he' : (s.withTimeout e u).idx e = -1 := by rwa [MinHeap.withTimeout_idx]
    have hpush : minHeapAdjust (s.withTimeout e u) mem e =
        minHeapPush (s.withTimeout e u) mem e := by rw [minHeapAdjust, if_pos he']
    rw [hpush]
    rcases hqueue.push he' hlen mem with ⟨t, ht, htn, -, hleaves⟩ | ⟨hmem, -, hfail⟩
    · rw [hqueued, htime] at hleaves
      exact .inl ⟨t, ht, Nat.le_of_eq htn, hleaves⟩
    · exact .inr ⟨by rw [MinHeap.queued, if_pos he], hmem, hfail, ⟨b, hqueue⟩, hqueued,
        fun _ ↦ rfl⟩
  · left
    obtain ⟨i, hi, rfl⟩ := mem_cells.1 (hs.mem_iff.2 he)
    have hidx : (s.withTimeout (b i) u).idx (b i) = i := by
      rw [MinHeap.withTimeout_idx, hs.seated.idx i hi]
    have hseated : Seated (s.withTimeout (b i) u).p (s.withTimeout (b i) u).idx b s.n := by
      rw [MinHeap.withTimeout_idx]
      exact hs.seated
    have hsift : Sifting (fun x ↦ ((s.withTimeout (b i) u).ev x).evTimeout)
        (s.withTimeout (b i) u) b s.n i :=
      ⟨hseated.hole_self hi, hs.room, hs.small, fun _ ↦ rfl⟩
    -- the array was a heap with the old timeout
    have hord : HeapOrdered toDual (fun j ↦ if j = i then (s.ev (b i)).evTimeout
        else ((s.withTimeout (b i) u).ev (b j)).evTimeout) s.n := by
      have hold : ∀ j < s.n, (if j = i then (s.ev (b i)).evTimeout
          else ((s.withTimeout (b i) u).ev (b j)).evTimeout) = (s.ev (b j)).evTimeout := by
        intro j hj
        by_cases hji : j = i
        · rw [if_pos hji, hji]
        · rw [if_neg hji, MinHeap.withTimeout_evTimeout,
            if_neg fun hb ↦ hji (hs.seated.inj hj hi hb)]
      intro j h0 hj
      dsimp only
      rw [hold j hj, hold _ ((parent_lt h0).trans hj)]
      exact hs.ordered j h0 hj
    have hn : (s.withTimeout (b i) u).n = s.n := rfl
    obtain ⟨t, ht, hheap, hmoved⟩ := resift_spec hn hsift hord fun j hj ↦ by rw [if_neg hj]
    obtain ⟨c, hqueue, hcells⟩ := hheap.queue hmoved.n (hmoved.a ▸ hs.room) hs.small
      hmoved.evTimeout fun x hx ↦ by
        rw [MinHeap.idx, hmoved.other x hx, ← MinHeap.idx, MinHeap.withTimeout_idx]
        exact hs.outside x hx
    refine ⟨t, ?_, ?_, ⟨c, hqueue⟩, ?_, hmoved.event⟩
    · rw [hs.seated.idx i hi] at he
      simp only [minHeapAdjust, hidx, he, if_false, ht, bind, Except.bind, pure, Except.pure]
    · rw [hmoved.n]
      exact Nat.le_succ s.n
    · funext x
      rw [hqueue.queued_eq, hmoved.evTimeout, MinHeap.withTimeout_evTimeout]
      by_cases hx : x = b i
      · rw [hx, Function.update_self, if_pos (hcells.mem_iff.2 (mem_cells.2 ⟨i, hi, rfl⟩)),
          if_pos rfl]
      · rw [Function.update_of_ne hx, hs.queued_eq, if_neg hx]
        simp only [hcells.mem_iff]

/-! ## Runs -/

/-- The calls of a client. -/
inductive HeapOp (ι : Type)
  /-- `min_heap_adjust_` after a change of the timeout. -/
  | adjust (e : ι) (u : Timeval) (mem : Bool)
  | erase (e : ι)
  | pop
  | top

inductive HeapAnswer (ι : Type)
  | code (res : ℤ)
  | event (e : Option ι)

def heapStep (s : MinHeap ι) : HeapOp ι → Except Fault (MinHeap ι × HeapAnswer ι)
  | .adjust e u mem => do
      let (s, res) ← minHeapAdjust (s.withTimeout e u) mem e
      return (s, .code res)
  | .erase e => do
      let (s, res) ← minHeapErase s e
      return (s, .code res)
  | .pop => do
      let (s, e) ← minHeapPop s
      return (s, .event e)
  | .top => do return (s, .event (← minHeapTop s))

/-- A priority queue with the same calls.  Which of several earliest events it
gives is open. -/
def HeapServes (q : ι → Option Timeval) :
    HeapOp ι → HeapAnswer ι → (ι → Option Timeval) → Prop
  | .adjust e u mem, .code res, q' =>
      (res = 0 ∧ q' = Function.update q e (some u)) ∨
        (res = -1 ∧ mem = false ∧ q e = none ∧ q' = q)
  | .erase e, .code res, q' =>
      res = (if (q e).isSome then 0 else -1) ∧ q' = Function.update q e none
  | .pop, .event top, q' =>
      Earliest q top ∧ q' = top.elim q fun e ↦ Function.update q e none
  | .top, .event top, q' => Earliest q top ∧ q' = q
  | _, _, _ => False

theorem Queue.step (hs : Queue s b) (hlen : s.n + 1 < 2 ^ 31) (op : HeapOp ι) :
    ∃ t ans q c, heapStep s op = .ok (t, ans) ∧ HeapServes s.queued op ans q ∧ Queue t c ∧
      t.n ≤ s.n + 1 ∧ t.queued = q := by
  cases op with
  | adjust e u mem =>
      rcases hs.adjust hlen e u mem with ⟨t, ht, htn, hleaves⟩ | ⟨hnone, hmem, hfail, hleaves⟩
      · obtain ⟨c, hc⟩ := hleaves.queue
        refine ⟨t, .code 0, _, c, ?_, Or.inl ⟨rfl, rfl⟩, hc, htn, hleaves.queued⟩
        simp only [heapStep, ht, bind, Except.bind, pure, Except.pure]
      · obtain ⟨c, hc⟩ := hleaves.queue
        refine ⟨_, .code (-1), _, c, ?_, Or.inr ⟨rfl, hmem, hnone, rfl⟩, hc, Nat.le_succ s.n,
          hleaves.queued⟩
        simp only [heapStep, hfail, bind, Except.bind, pure, Except.pure]
  | erase e =>
      by_cases he : s.idx e = -1
      · have hnone : s.queued e = none := if_pos he
        refine ⟨s, .code (-1), s.queued, b, ?_, ⟨by rw [hnone]; rfl, ?_⟩, hs, Nat.le_succ s.n, rfl⟩
        · simp only [heapStep, minHeapErase, he, ne_eq, not_true_eq_false, if_false, bind,
            Except.bind, pure, Except.pure]
        · rw [← hnone, Function.update_eq_self]
      · obtain ⟨t, ht, htn, -, hleaves⟩ := hs.erase he
        obtain ⟨c, hc⟩ := hleaves.queue
        have hsome : s.queued e = some (s.ev e).evTimeout := if_neg he
        refine ⟨t, .code 0, _, c, ?_, ⟨by rw [hsome]; rfl, rfl⟩, hc, by omega, hleaves.queued⟩
        simp only [heapStep, ht, bind, Except.bind, pure, Except.pure]
  | pop =>
      obtain ⟨t, top, ht, hfirst, htn, hleaves⟩ := hs.pop
      obtain ⟨c, hc⟩ := hleaves.queue
      refine ⟨t, .event top, _, c, ?_, ⟨hfirst, rfl⟩, hc, by omega, hleaves.queued⟩
      simp only [heapStep, ht, bind, Except.bind, pure, Except.pure]
  | top =>
      obtain ⟨top, htop, hfirst, -⟩ := hs.earliest
      refine ⟨s, .event top, s.queued, b, ?_, ⟨hfirst, rfl⟩, hs, Nat.le_succ s.n, rfl⟩
      simp only [heapStep, htop, bind, Except.bind, pure, Except.pure]

omit [DecidableEq ι] in
theorem Queue.ctor (s : MinHeap ι) (hidx : ∀ x, s.idx x = -1) (b : ℕ → ι) :
    Queue (minHeapCtor s) b where
  room := Nat.le_refl 0
  small := Nat.two_pow_pos 31
  seated := ⟨fun i hi ↦ absurd hi (Nat.not_lt_zero i), fun i hi ↦ absurd hi (Nat.not_lt_zero i)⟩
  ordered := fun i _ hi ↦ absurd hi (Nat.not_lt_zero i)
  outside := fun x _ ↦ hidx x

/-- The calls of the heap functions are served as by a priority queue: no call
reads outside of the block or an entry that was not written, the root is an
event with the earliest timeout, and only an event that is not in the heap can
fail to get in.  Throughout the events in the heap know their positions. -/
theorem minHeap_serves [Inhabited ι] (s₀ : MinHeap ι) (ops : List (HeapOp ι))
    (hidx : ∀ x, s₀.idx x = -1) (hlen : ops.length < 2 ^ 31) :
    ∃ s as q, answers heapStep (minHeapCtor s₀) ops = .ok (s, as) ∧
      Follows HeapServes (fun _ ↦ none) ops as q ∧ s.queued = q ∧
      ∃ b : ℕ → ι, (∀ i < s.n, s.p i = some (b i) ∧ s.idx (b i) = i) ∧
        (∀ i, 0 < i → i < s.n →
          (s.ev (b ((i - 1) / 2))).evTimeout ≤ (s.ev (b i)).evTimeout) ∧
        (∀ x, (∀ i < s.n, b i ≠ x) → s.idx x = -1) ∧ s.n ≤ s.a := by
  have hstep : ∀ n (s : MinHeap ι) q op, n < ops.length →
      (∃ b, Queue s b ∧ s.n ≤ n ∧ s.queued = q) → True →
      ∃ t ans q', heapStep s op = .ok (t, ans) ∧ HeapServes q op ans q' ∧
        ∃ c, Queue t c ∧ t.n ≤ n + 1 ∧ t.queued = q' := by
    rintro n s q op hn ⟨b, hs, hle, rfl⟩ -
    obtain ⟨t, ans, q', c, ht, hserves, hc, htn, hq⟩ := hs.step (by omega) op
    exact ⟨t, ans, q', ht, hserves, c, hc, by omega, hq⟩
  have hstart : ∃ b, Queue (minHeapCtor s₀) b ∧ (minHeapCtor s₀).n ≤ 0 ∧
      (minHeapCtor s₀).queued = fun _ ↦ none :=
    ⟨fun _ ↦ default, Queue.ctor s₀ hidx _, Nat.le_refl 0, funext fun x ↦ if_pos (hidx x)⟩
  obtain ⟨s, as, q, hs, hfollows, b, hb, -, hq⟩ := answers_follow
    (fun n s q ↦ ∃ b, Queue s b ∧ s.n ≤ n ∧ s.queued = q) hstep
    (Nat.le_of_eq (Nat.zero_add _)) hstart fun _ _ ↦ trivial
  refine ⟨s, as, q, hs, hfollows, hq, b, fun i hi ↦ ⟨hb.seated.entry i hi, hb.seated.idx i hi⟩,
    fun i h0 hi ↦ hb.ordered i h0 hi, fun x hx ↦ hb.outside x fun hmem ↦ ?_, hb.room⟩
  obtain ⟨i, hi, hix⟩ := mem_cells.1 hmem
  exact hx i hi hix

/-- Two timers, of which the second is due first. -/
theorem minHeap_serves_two :
    ∃ s as q, answers heapStep (minHeapCtor ⟨fun _ ↦ none, 0, 0,
        fun _ : ℕ ↦ ⟨⟨0, 0⟩, -1, false, false, 0⟩⟩)
      [.adjust 1 ⟨7, 0⟩ true, .adjust 2 ⟨3, 500⟩ true, .pop, .erase 2] = .ok (s, as) ∧
      Follows HeapServes (fun _ ↦ none)
        [.adjust 1 ⟨7, 0⟩ true, .adjust 2 ⟨3, 500⟩ true, .pop, .erase 2] as q := by
  obtain ⟨s, as, q, hs, hfollows, -⟩ := minHeap_serves ⟨fun _ ↦ none, 0, 0,
      fun _ : ℕ ↦ ⟨⟨0, 0⟩, -1, false, false, 0⟩⟩
    [.adjust 1 ⟨7, 0⟩ true, .adjust 2 ⟨3, 500⟩ true, .pop, .erase 2] (fun _ ↦ rfl) (by decide)
  exact ⟨s, as, q, hs, hfollows⟩

end Cocool.Timer
