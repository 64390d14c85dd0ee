import Cocool.Timer.Base
import Mathlib.Data.Set.Card

/-!
# What an event base shows

The flags and counters of an event base follow from two things: which events
have which timeout, and which of them wait for their callback.  Each function
of `event.c` is specified by what it makes of these.
-/

namespace Cocool.Timer

open Lib

variable {ι α : Type} [DecidableEq ι] {s t : MinHeap ι} {base : EventBase ι} {b : ℕ → ι}
  {n a k w : ℕ} {p q : ι → Option Timeval} {l : List ι} {r : ι → BitVec 16} {e x : ι}
  {f : Event → Event} {u v now : Timeval} {mem memPush tvIsAbsolute : Bool}

/-- The heap has `n` events in `a` cells, with the timeouts `q`; the callbacks of
`l` are to be run in this order, each with the argument in `r`. -/
structure Shows (base : EventBase ι) (n a : ℕ) (q : ι → Option Timeval) (l : List ι)
    (r : ι → BitVec 16) : Prop where
  queue : ∃ b, Queue base.timeheap b
  size : base.timeheap.n = n
  room : base.timeheap.a = a
  queued : base.timeheap.queued = q
  timeout : ∀ x, (base.ev x).timeout = (q x).isSome
  active : ∀ x, (base.ev x).active = true ↔ x ∈ l
  activequeue : base.activequeue = l
  nodup : l.Nodup
  evRes : ∀ x, (base.ev x).evRes = r x
  virtualCount : base.virtualEventCount = 0
  count : base.eventCount = n + l.length
  countActive : base.eventCountActive = l.length

/-- The events that wait after a new timeout was set for `e`. -/
def waiting (l : List ι) (r : ι → BitVec 16) (e : ι) : List ι :=
  if hasTimeout (r e) then l.erase e else l

/-- The heap grows only for an event that is not in it and finds it full. -/
def roomFor (a n : ℕ) (set : Bool) : ℕ := if set then a else grownRoom a n

theorem waiting_length_le (l : List ι) (r : ι → BitVec 16) (e : ι) :
    (waiting l r e).length ≤ l.length := by
  rw [waiting]
  split
  · exact List.length_erase_le
  · exact le_rfl

namespace EventBase

theorem ev_withEvent (base : EventBase ι) (e : ι) (f : Event → Event) (x : ι) :
    (base.withEvent e f).ev x = if x = e then f (base.ev e) else base.ev x :=
  Function.update_apply base.timeheap.ev e (f (base.ev e)) x

theorem ev_withEvent_self (base : EventBase ι) (e : ι) (f : Event → Event) :
    (base.withEvent e f).ev e = f (base.ev e) := by
  rw [ev_withEvent, if_pos rfl]

theorem ev_withEvent_of_ne (base : EventBase ι) (f : Event → Event) (h : x ≠ e) :
    (base.withEvent e f).ev x = base.ev x := by
  rw [ev_withEvent, if_neg h]

/-- A field that `f` leaves alone. -/
theorem field_withEvent (base : EventBase ι) (f : Event → Event) (g : Event → α)
    (hg : ∀ ev, g (f ev) = g ev) (e x : ι) : g ((base.withEvent e f).ev x) = g (base.ev x) := by
  by_cases hx : x = e
  · rw [hx, ev_withEvent_self, hg]
  · rw [ev_withEvent_of_ne base f hx]

end EventBase

/-- A write to other fields leaves the heap alone. -/
theorem Queue.withEvent (hs : Queue base.timeheap b)
    (hidx : ∀ ev, (f ev).minHeapIdx = ev.minHeapIdx)
    (htime : ∀ ev, (f ev).evTimeout = ev.evTimeout) (e : ι) :
    Queue (base.withEvent e f).timeheap b ∧
      (base.withEvent e f).timeheap.queued = base.timeheap.queued := by
  have hidx' : (base.withEvent e f).timeheap.idx = base.timeheap.idx :=
    funext fun x ↦ base.field_withEvent f Event.minHeapIdx hidx e x
  have htime' : ∀ x, ((base.withEvent e f).timeheap.ev x).evTimeout =
      (base.timeheap.ev x).evTimeout := fun x ↦ base.field_withEvent f Event.evTimeout htime e x
  refine ⟨⟨hs.room, hs.small, ?_, ?_, ?_⟩, ?_⟩
  · rw [hidx']
    exact hs.seated
  · simp only [htime']
    exact hs.ordered
  · rw [hidx']
    exact hs.outside
  · funext x
    rw [MinHeap.queued, MinHeap.queued, hidx', htime']

omit [DecidableEq ι] in
/-- The heap functions leave the other fields alone. -/
theorem Leaves.field (h : Leaves s t p) (g : Event → α)
    (hg : ∀ ev, g { ev with minHeapIdx := 0 } = g ev) (x : ι) : g (t.ev x) = g (s.ev x) := by
  rw [← hg, h.event x, hg]

namespace Shows

omit [DecidableEq ι] in
theorem evTimeout (hs : Shows base n a q l r) (hx : q x = some u) : (base.ev x).evTimeout = u := by
  rw [← hs.queued, MinHeap.queued] at hx
  split at hx
  · cases hx
  · exact Option.some.inj hx

omit [DecidableEq ι] in
theorem idx_iff (hs : Shows base n a q l r) : base.timeheap.idx x = -1 ↔ q x = none := by
  rw [← hs.queued, MinHeap.queued]
  simp

/-- The root is an earliest event. -/
theorem top (hs : Shows base n a q l r) :
    (minHeapTop base.timeheap = .ok none ∧ n = 0 ∧ ∀ x, q x = none) ∨
    (∃ e u, minHeapTop base.timeheap = .ok (some e) ∧ q e = some u ∧
      (∀ x v, q x = some v → u ≤ v) ∧ ∀ x, base.timeheap.idx x = 0 ↔ x = e) := by
  obtain ⟨b, hb⟩ := hs.queue
  obtain ⟨top, htop, hfirst, hnone, hsome⟩ := hb.earliest
  rw [hs.queued] at hfirst
  cases top with
  | none => exact .inl ⟨htop, hs.size ▸ hnone.1 rfl, hfirst⟩
  | some e =>
      obtain ⟨u, hu, hle⟩ := hfirst
      have hn : base.timeheap.n ≠ 0 := fun h ↦ Option.some_ne_none e (hnone.2 h)
      obtain rfl := Option.some.inj (hsome hn)
      refine .inr ⟨_, u, htop, hu, hle, fun x ↦ ⟨fun hx ↦ ?_, fun hx ↦ ?_⟩⟩
      · have hidx : base.timeheap.idx x ≠ -1 := by
          rw [hx]
          decide
        obtain ⟨i, hi, rfl⟩ := mem_cells.1 (hb.mem_iff.2 hidx)
        rw [hb.seated.idx i hi, Nat.cast_eq_zero] at hx
        rw [hx]
      · rw [hx]
        exact hb.seated.idx 0 (Nat.pos_of_ne_zero hn)

/-! ## The two queues -/

theorem removeActive (hs : Shows base n a q l r) (he : e ∈ l) :
    ∃ base', eventQueueRemoveActive base e = .ok base' ∧ Shows base' n a q (l.erase e) r := by
  obtain ⟨b, hb⟩ := hs.queue
  have hactive : (base.ev e).active = true := (hs.active e).2 he
  have hb' : Queue (decrEventCount base).timeheap b := hb
  obtain ⟨hqueue, hqueued⟩ := hb'.withEvent (f := Event.setActive false) (fun _ ↦ rfl)
    (fun _ ↦ rfl) e
  have hlen : ((l.erase e).length : ℤ) = l.length - 1 := by
    rw [← List.length_erase_add_one he, Nat.cast_add, Nat.cast_one, add_sub_cancel_right]
  rw [eventQueueRemoveActive, if_pos hactive]
  refine ⟨_, rfl, ⟨b, hqueue⟩, hs.size, hs.room, hqueued.trans hs.queued, fun x ↦ ?_, fun x ↦ ?_,
    congrArg (List.erase · e) hs.activequeue, hs.nodup.erase e, fun x ↦ ?_, hs.virtualCount, ?_, ?_⟩
  · rw [← hs.timeout x]
    exact (decrEventCount base).field_withEvent (Event.setActive false) Event.timeout
      (fun _ ↦ rfl) e x
  · rw [hs.nodup.mem_erase_iff]
    by_cases hx : x = e
    · simp [EventBase.ev, EventBase.withEvent, hx]
    · rw [← hs.active x]
      simp [EventBase.ev, EventBase.withEvent, hx, decrEventCount]
  · rw [← hs.evRes x]
    exact (decrEventCount base).field_withEvent (Event.setActive false) Event.evRes
      (fun _ ↦ rfl) e x
  · have hcount := hs.count
    simp only [EventBase.withEvent, decrEventCount, hlen]
    omega
  · have hcount := hs.countActive
    simp only [EventBase.withEvent, decrEventCount, hlen]
    omega

theorem insertActive (hs : Shows base n a q l r) (he : e ∉ l) :
    Shows (eventQueueInsertActive base e) n a q (l ++ [e]) r := by
  obtain ⟨b, hb⟩ := hs.queue
  have hactive : ¬ (base.ev e).active = true := fun h ↦ he ((hs.active e).1 h)
  have hb' : Queue (incrEventCount base).timeheap b := hb
  obtain ⟨hqueue, hqueued⟩ := hb'.withEvent (f := Event.setActive true) (fun _ ↦ rfl)
    (fun _ ↦ rfl) e
  rw [eventQueueInsertActive, if_neg hactive]
  refine ⟨⟨b, hqueue⟩, hs.size, hs.room, hqueued.trans hs.queued, fun x ↦ ?_, fun x ↦ ?_,
    congrArg (· ++ [e]) hs.activequeue, ?_, fun x ↦ ?_, hs.virtualCount, ?_, ?_⟩
  · rw [← hs.timeout x]
    exact (incrEventCount base).field_withEvent (Event.setActive true) Event.timeout
      (fun _ ↦ rfl) e x
  · rw [List.mem_append, List.mem_singleton, ← hs.active x]
    by_cases hx : x = e
    · simp [EventBase.ev, EventBase.withEvent, hx]
    · simp [EventBase.ev, EventBase.withEvent, hx, incrEventCount]
  · rw [List.nodup_append]
    exact ⟨hs.nodup, List.nodup_singleton e, fun a ha c hc hac ↦
      he (List.mem_singleton.1 hc ▸ hac ▸ ha)⟩
  · rw [← hs.evRes x]
    exact (incrEventCount base).field_withEvent (Event.setActive true) Event.evRes
      (fun _ ↦ rfl) e x
  · have hcount := hs.count
    simp only [EventBase.withEvent, incrEventCount, List.length_append, List.length_singleton]
    omega
  · have hcount := hs.countActive
    simp only [EventBase.withEvent, incrEventCount, List.length_append, List.length_singleton]
    omega

/-- The heap and the flag of one event change together. -/
theorem retimed {timeout : Bool} {c m : ℤ} (hs : Shows base n a q l r)
    (hleaves : Leaves (base.withEvent e (Event.setTimeout timeout)).timeheap t p)
    (he : (p e).isSome = timeout) (hp : ∀ x, x ≠ e → p x = q x) (hc : c = t.n + l.length) :
    Shows { base with timeheap := t, eventCount := c, eventCountMax := m } t.n t.a p l r := by
  refine ⟨hleaves.queue, rfl, rfl, hleaves.queued, fun x ↦ ?_, fun x ↦ ?_, hs.activequeue,
    hs.nodup, fun x ↦ ?_, hs.virtualCount, hc, hs.countActive⟩
  · refine (hleaves.field Event.timeout (fun _ ↦ rfl) x).trans ?_
    by_cases hx : x = e
    · simp [EventBase.withEvent, hx, he]
    · rw [hp x hx, ← hs.timeout x]
      simp [EventBase.ev, EventBase.withEvent, hx]
  · rw [← hs.active x]
    exact Iff.of_eq (congrArg (· = true) ((hleaves.field Event.active (fun _ ↦ rfl) x).trans
      (base.field_withEvent (Event.setTimeout timeout) Event.active (fun _ ↦ rfl) e x)))
  · rw [← hs.evRes x]
    exact (hleaves.field Event.evRes (fun _ ↦ rfl) x).trans
      (base.field_withEvent (Event.setTimeout timeout) Event.evRes (fun _ ↦ rfl) e x)

theorem removeTimeout (hs : Shows base n a q l r) (he : (q e).isSome) :
    ∃ base' k, eventQueueRemoveTimeout base e = .ok base' ∧
      Shows base' k a (Function.update q e none) l r ∧ k + 1 = n := by
  obtain ⟨b, hb⟩ := hs.queue
  have htimeout : (base.ev e).timeout = true := (hs.timeout e).trans he
  obtain ⟨hqueue, hqueued⟩ := hb.withEvent (f := Event.setTimeout false) (fun _ ↦ rfl)
    (fun _ ↦ rfl) e
  have hidx : (base.withEvent e (Event.setTimeout false)).timeheap.idx e ≠ -1 := by
    have hev := base.field_withEvent (Event.setTimeout false) Event.minHeapIdx (fun _ ↦ rfl) e e
    exact fun h ↦ Option.isSome_iff_ne_none.1 he (hs.idx_iff.1 (hev.symm.trans h))
  obtain ⟨t, ht, htn, hta, hleaves⟩ := hqueue.erase hidx
  have htn : t.n + 1 = n := htn.trans hs.size
  have hta : t.a = a := hta.trans hs.room
  have ht' : minHeapErase ((decrEventCount base).withEvent e (Event.setTimeout false)).timeheap e =
      .ok (t, 0) := ht
  rw [hqueued, hs.queued] at hleaves
  have hshows := hs.retimed (c := base.eventCount - 1) (m := base.eventCountMax) hleaves
    (by rw [Function.update_self]; rfl) (fun x hx ↦ Function.update_of_ne hx _ _)
    (by rw [hs.count, ← htn, Nat.cast_add, Nat.cast_one]; omega)
  refine ⟨_, t.n, ?_, hta ▸ hshows, htn⟩
  rw [eventQueueRemoveTimeout, if_pos htimeout]
  simp only [ht', bind, Except.bind, pure, Except.pure]
  rfl

/-- There is room, so the push that nobody looks at does not fail. -/
theorem insertTimeout (hs : Shows base n a q l r) (he : q e = none)
    (htime : (base.ev e).evTimeout = u) (hroom : n < a) (hlen : n + 1 < 2 ^ 31)
    (mem : Bool) :
    ∃ base', eventQueueInsertTimeout base mem e = .ok base' ∧
      Shows base' (n + 1) a (Function.update q e (some u)) l r := by
  obtain ⟨b, hb⟩ := hs.queue
  have htimeout : ¬ (base.ev e).timeout = true := by
    rw [hs.timeout e, he]
    exact Bool.false_ne_true
  obtain ⟨hqueue, hqueued⟩ := hb.withEvent (f := Event.setTimeout true) (fun _ ↦ rfl)
    (fun _ ↦ rfl) e
  have hidx : (base.withEvent e (Event.setTimeout true)).timeheap.idx e = -1 :=
    (base.field_withEvent (Event.setTimeout true) Event.minHeapIdx (fun _ ↦ rfl) e e).trans
      (hs.idx_iff.2 he)
  have htime' : ((base.withEvent e (Event.setTimeout true)).timeheap.ev e).evTimeout = u :=
    (base.field_withEvent (Event.setTimeout true) Event.evTimeout (fun _ ↦ rfl) e e).trans htime
  have hn : (base.withEvent e (Event.setTimeout true)).timeheap.n = n := hs.size
  have ha : (base.withEvent e (Event.setTimeout true)).timeheap.a = a := hs.room
  rcases hqueue.push hidx (hn.symm ▸ hlen) mem with ⟨t, ht, htn, hta, hleaves⟩ | ⟨-, hfull, -⟩
  · have htn : t.n = n + 1 := htn.trans (congrArg (· + 1) hn)
    have hta : t.a = a := by
      rw [hta, ha, hn, grownRoom, if_neg (not_le.2 hroom)]
    have ht' : minHeapPush ((incrEventCount base).withEvent e (Event.setTimeout true)).timeheap mem
        e = .ok (t, 0) := ht
    rw [hqueued, hs.queued, htime'] at hleaves
    have hshows := hs.retimed (c := base.eventCount + 1)
      (m := max base.eventCountMax (base.eventCount + 1)) hleaves
      (by rw [Function.update_self]; rfl) (fun x hx ↦ Function.update_of_ne hx _ _)
      (by rw [hs.count, htn, Nat.cast_add, Nat.cast_one]; omega)
    refine ⟨_, ?_, htn ▸ hta ▸ hshows⟩
    rw [eventQueueInsertTimeout, if_neg htimeout]
    simp only [ht', bind, Except.bind, pure, Except.pure]
    rfl
  · rw [ha, hn] at hfull
    omega

/-! ## The functions of the interface -/

theorem setRes (hs : Shows base n a q l r) (e : ι) (res : BitVec 16) :
    Shows (base.withEvent e (Event.setRes res)) n a q l (Function.update r e res) := by
  obtain ⟨b, hb⟩ := hs.queue
  obtain ⟨hqueue, hqueued⟩ := hb.withEvent (f := Event.setRes res) (fun _ ↦ rfl) (fun _ ↦ rfl) e
  refine ⟨⟨b, hqueue⟩, hs.size, hs.room, hqueued.trans hs.queued, fun x ↦ ?_, fun x ↦ ?_,
    hs.activequeue, hs.nodup, fun x ↦ ?_, hs.virtualCount, hs.count, hs.countActive⟩
  · rw [← hs.timeout x]
    exact base.field_withEvent (Event.setRes res) Event.timeout (fun _ ↦ rfl) e x
  · rw [← hs.active x]
    exact Iff.of_eq (congrArg (· = true)
      (base.field_withEvent (Event.setRes res) Event.active (fun _ ↦ rfl) e x))
  · by_cases hx : x = e
    · rw [hx, Function.update_self, EventBase.ev_withEvent_self]
      rfl
    · rw [Function.update_of_ne hx, base.ev_withEvent_of_ne _ hx, hs.evRes]

/-- A new event comes last; one that waits already has its argument extended. -/
theorem eventActive (hs : Shows base n a q l r) (e : ι) (res : BitVec 32) :
    (e ∈ l → (eventActiveNolock base e res).2 = false ∧
      Shows (eventActiveNolock base e res).1 n a q l (Function.update r e (addRes (r e) res))) ∧
    (e ∉ l → (eventActiveNolock base e res).2 = true ∧
      Shows (eventActiveNolock base e res).1 n a q (l ++ [e])
        (Function.update r e (res.setWidth 16))) := by
  constructor
  · intro he
    rw [eventActiveNolock, if_pos ((hs.active e).2 he), hs.evRes]
    exact ⟨rfl, hs.setRes e _⟩
  · intro he
    have hshows := hs.setRes e (res.setWidth 16)
    have hactive : ¬ (base.ev e).active = true := fun h ↦ he ((hs.active e).1 h)
    have hactive' : ¬ ((base.withEvent e (Event.setRes (res.setWidth 16))).ev e).active =
        true :=
      fun h ↦ he ((hshows.active e).1 h)
    rw [eventActiveNolock, if_neg hactive, eventCallbackActivateNolock, if_neg hactive']
    exact ⟨rfl, hshows.insertActive he⟩

theorem dropTimeout (hs : Shows base n a q l r) (e : ι) :
    ∃ base' k, Timer.dropTimeout base e = .ok base' ∧
      Shows base' k a (Function.update q e none) l r ∧ k ≤ n ∧ ((q e).isSome → k < n) := by
  by_cases he : (q e).isSome
  · obtain ⟨base', k, hbase', hshows, hk⟩ := hs.removeTimeout he
    refine ⟨base', k, ?_, hshows, by omega, fun _ ↦ by omega⟩
    rw [Timer.dropTimeout, if_pos ((hs.timeout e).trans he), hbase']
  · have hnone : q e = none := Option.not_isSome_iff_eq_none.1 he
    refine ⟨base, n, ?_, ?_, le_rfl, fun h ↦ absurd h he⟩
    · rw [Timer.dropTimeout, if_neg (hs.timeout e ▸ he)]
    · rwa [← hnone, Function.update_eq_self]

/-- An event without a timeout that does not wait is left alone. -/
theorem eventDel (hs : Shows base n a q l r) (e : ι) :
    ∃ base' k, eventDelNolock base e = .ok base' ∧
      Shows base' k a (Function.update q e none) (l.erase e) r ∧ k ≤ n ∧
      ((q e).isSome → k < n) := by
  obtain ⟨mid, k, hmid, hshows, hk, hlt⟩ := hs.dropTimeout e
  have hdel : eventDelNolock base e =
      if (mid.ev e).active then eventQueueRemoveActive mid e else .ok mid := by
    rw [eventDelNolock, hmid]
    rfl
  rw [hdel]
  by_cases he : e ∈ l
  · obtain ⟨base', hbase', hshows'⟩ := hshows.removeActive he
    exact ⟨base', k, by rw [if_pos ((hshows.active e).2 he), hbase'], hshows', hk, hlt⟩
  · refine ⟨mid, k, by rw [if_neg fun h ↦ he ((hshows.active e).1 h)], ?_, hk, hlt⟩
    rwa [List.erase_of_not_mem he]

theorem takeBack (hs : Shows base n a q l r) (e : ι) :
    ∃ base', Timer.takeBack base e = .ok base' ∧ Shows base' n a q (waiting l r e) r := by
  rw [Timer.takeBack, waiting, hs.evRes e]
  by_cases hr : hasTimeout (r e)
  · rw [if_pos hr]
    by_cases he : e ∈ l
    · rw [if_pos ⟨(hs.active e).2 he, hr⟩]
      exact hs.removeActive he
    · rw [if_neg fun h ↦ he ((hs.active e).1 h.1), List.erase_of_not_mem he]
      exact ⟨base, rfl, hs⟩
  · rw [if_neg fun h ↦ hr h.2, if_neg hr]
    exact ⟨base, rfl, hs⟩

omit [DecidableEq ι] in
theorem reserve (hs : Shows base n a q l r) (hlen : n + 1 < 2 ^ 32) (mem : Bool) (e : ι) :
    (∃ base', reserveTimeout base mem e = (base', 0) ∧
      Shows base' n (roomFor a n (q e).isSome) q l r ∧ (q e = none → a ≤ n → mem = true)) ∨
    (mem = false ∧ q e = none ∧ a ≤ n ∧ reserveTimeout base mem e = (base, -1)) := by
  obtain ⟨b, hb⟩ := hs.queue
  by_cases he : q e = none
  · have htimeout : ¬ (base.ev e).timeout = true := by
      rw [hs.timeout e, he]
      exact Bool.false_ne_true
    have hwrap : wrapUnsigned 32 (1 + (base.timeheap.n : ℤ)) = base.timeheap.n + 1 := by
      have hn := hs.size
      have hsucc := wrapUnsigned_of_lt (w := 32) (n := 1 + (base.timeheap.n : ℤ)) (by omega)
        (by omega)
      omega
    have hgrown : roomFor a n (q e).isSome = grownRoom base.timeheap.a base.timeheap.n := by
      rw [he, hs.room, hs.size]
      rfl
    rcases hb.reserve mem with ⟨t, ht, htq, hev, htn, hta, hmem⟩ | ⟨hmem, hfull, hfail⟩
    · left
      have hqueued : t.queued = q := (MinHeap.queued_congr hev).trans hs.queued
      have hev' : ∀ x, t.ev x = base.ev x := fun x ↦ congrFun hev x
      refine ⟨{ base with timeheap := t }, ?_, ⟨⟨b, htq⟩, htn.trans hs.size, hta.trans hgrown.symm,
        hqueued, fun x ↦ ?_, fun x ↦ ?_, hs.activequeue, hs.nodup, fun x ↦ ?_, hs.virtualCount,
        hs.count, hs.countActive⟩, fun _ hfull ↦ hmem (by rw [hs.room, hs.size]; exact hfull)⟩
      · simp only [reserveTimeout, if_neg htimeout, hwrap, ht]
      · rw [← hs.timeout x, ← hev' x]
        rfl
      · rw [← hs.active x, ← hev' x]
        rfl
      · rw [← hs.evRes x, ← hev' x]
        rfl
    · rw [hs.room, hs.size] at hfull
      refine .inr ⟨hmem, he, hfull, ?_⟩
      simp only [reserveTimeout, if_neg htimeout, hwrap, hfail]
  · have hsome : (q e).isSome := Option.isSome_iff_ne_none.2 he
    have htimeout : (base.ev e).timeout = true := (hs.timeout e).trans hsome
    refine .inl ⟨base, by rw [reserveTimeout, if_pos htimeout], ?_, fun h ↦ absurd h he⟩
    rwa [roomFor, if_pos hsome]

theorem withTimeout (hs : Shows base n a q l r) (he : q e = none) (u : Timeval) :
    Shows { base with timeheap := base.timeheap.withTimeout e u } n a q l r := by
  obtain ⟨b, hb⟩ := hs.queue
  obtain ⟨hqueue, hqueued⟩ := hb.withTimeout (hs.idx_iff.2 he) u
  refine ⟨⟨b, hqueue⟩, hs.size, hs.room, hqueued.trans hs.queued, fun x ↦ ?_, fun x ↦ ?_,
    hs.activequeue, hs.nodup, fun x ↦ ?_, hs.virtualCount, hs.count, hs.countActive⟩
  · rw [← hs.timeout x]
    exact base.field_withEvent ({ · with evTimeout := u }) Event.timeout (fun _ ↦ rfl) e x
  · rw [← hs.active x]
    exact Iff.of_eq (congrArg (· = true)
      (base.field_withEvent ({ · with evTimeout := u }) Event.active (fun _ ↦ rfl) e x))
  · rw [← hs.evRes x]
    exact base.field_withEvent ({ · with evTimeout := u }) Event.evRes (fun _ ↦ rfl) e x

/-- Without a call the first timeout is one that was there before. -/
theorem needsNotify (hs : Shows base n a q l r) (he : q e = some u) (now : Timeval) :
    ∃ notify, Timer.needsNotify base e now = .ok notify ∧
      (notify = true → Earliest q (some e) ∨ ∃ x v, q x = some v ∧ v < now) ∧
      (notify = false → ∃ x v, x ≠ e ∧ Earliest q (some x) ∧ q x = some v ∧ now ≤ v) := by
  rcases hs.top with ⟨-, -, hnone⟩ | ⟨top, v, htop, hv, hle, hidx⟩
  · rw [hnone e] at he
    cases he
  · by_cases hroot : e = top
    · refine ⟨true, ?_, fun _ ↦ .inl ⟨v, hroot ▸ hv, hle⟩, fun h ↦ absurd h Bool.noConfusion⟩
      rw [Timer.needsNotify, minHeapEltIsTop, if_pos (decide_eq_true ((hidx e).2 hroot))]
    · refine ⟨decide (v < now), ?_, fun h ↦ .inr ⟨top, v, hv, of_decide_eq_true h⟩,
        fun h ↦ ⟨top, v, Ne.symm hroot, ⟨v, hv, hle⟩, hv, not_lt.1 (of_decide_eq_false h)⟩⟩
      have hnot : ¬ decide (base.timeheap.idx e = 0) = true := fun h ↦
        hroot ((hidx e).1 (of_decide_eq_true h))
      rw [Timer.needsNotify, minHeapEltIsTop, if_neg hnot, htop, ← evutilTimercmp_lt,
        ← hs.evTimeout hv]
      rfl

theorem eventAdd (hs : Shows base n a q l r) (hlen : n + 1 < 2 ^ 31) (e : ι) (tv : Timeval)
    (tvIsAbsolute : Bool) (now : Timeval) (hu : deadline w tvIsAbsolute now tv = .ok u)
    (mem memPush : Bool) :
    (∃ base' k notify, eventAddNolock w base e (some tv) tvIsAbsolute now mem memPush =
        .ok (base', 0, notify) ∧ k ≤ n + 1 ∧
      Shows base' k (roomFor a n (q e).isSome) (Function.update q e (some u)) (waiting l r e) r ∧
      Timer.needsNotify base' e now = .ok notify ∧ (q e = none → a ≤ n → mem = true)) ∨
    (mem = false ∧ q e = none ∧ a ≤ n ∧
      eventAddNolock w base e (some tv) tvIsAbsolute now mem memPush = .ok (base, -1, false)) := by
  rcases hs.reserve (by omega) mem e with ⟨base₀, hbase₀, hs₀, hmem⟩ | ⟨hmem, he, hfull, hfail⟩
  · left
    obtain ⟨base₁, k, hbase₁, hs₁, hk, hlt⟩ := hs₀.dropTimeout e
    obtain ⟨base₂, hbase₂, hs₂⟩ := hs₁.takeBack e
    have he₂ : Function.update q e none e = none := Function.update_self e none q
    have hs₃ := hs₂.withTimeout he₂ u
    have htime : ((base₂.timeheap.withTimeout e u).ev e).evTimeout = u := by
      rw [MinHeap.withTimeout_evTimeout, if_pos rfl]
    -- there is room for the event, as it was asked for or the event had a place
    have hk' : k < roomFor a n (q e).isSome := by
      by_cases he : (q e).isSome
      · obtain ⟨b, hb⟩ := hs₀.queue
        have hle := hb.room
        rw [hs₀.size, hs₀.room] at hle
        exact (hlt he).trans_le hle
      · rw [roomFor, if_neg he]
        exact hk.trans_lt (lt_grownRoom a n)
    obtain ⟨base₄, hbase₄, hs₄⟩ := hs₃.insertTimeout he₂ htime hk' (by omega) memPush
    rw [Function.update_idem] at hs₄
    obtain ⟨notify, hnotify, -⟩ := hs₄.needsNotify (Function.update_self e _ q) now
    refine ⟨base₄, k + 1, notify, ?_, by omega, hs₄, hnotify, hmem⟩
    have hne : ¬ (0 : ℤ) = -1 := by decide
    simp only [eventAddNolock, hbase₀, hne, if_false, hbase₁, hbase₂, hu, bind, Except.bind,
      hbase₄, hnotify, pure, Except.pure]
  · refine .inr ⟨hmem, he, hfull, ?_⟩
    simp only [eventAddNolock, hfail, if_true]

/-- Nothing is set where the deadline cannot be computed. -/
theorem eventAdd_overflow {fault : Fault} (hs : Shows base n a q l r) (hlen : n + 1 < 2 ^ 32)
    (e : ι) {tv : Timeval} (hu : deadline w tvIsAbsolute now tv = .error fault)
    (mem memPush : Bool) :
    eventAddNolock w base e (some tv) tvIsAbsolute now mem memPush = .error fault ∨
    (mem = false ∧ q e = none ∧ a ≤ n) := by
  rcases hs.reserve hlen mem e with ⟨base₀, hbase₀, hs₀, -⟩ | ⟨hmem, he, hfull, -⟩
  · left
    obtain ⟨base₁, k, hbase₁, hs₁, -, -⟩ := hs₀.dropTimeout e
    obtain ⟨base₂, hbase₂, -⟩ := hs₁.takeBack e
    have hne : ¬ (0 : ℤ) = -1 := by decide
    simp only [eventAddNolock, hbase₀, hne, if_false, hbase₁, hbase₂, hu, bind, Except.bind]
  · exact .inr ⟨hmem, he, hfull⟩

/-! ## Waiting and running -/

/-! The events `d` are moved after `e` was. -/

theorem extend_update (g : ι → α) (a : α) (e : ι) (d : List ι) :
    (fun x ↦ if x ∈ e :: d then a else g x) =
      fun x ↦ if x ∈ d then a else Function.update g e a x := by
  funext x
  by_cases hx : x = e
  · simp [hx]
  · simp [hx]

theorem extend_waiting {d : List ι} (hl : l.Nodup) (he : e ∉ d) :
    l.filter (· ∉ e :: d) ++ e :: d = (l.erase e ++ [e]).filter (· ∉ d) ++ d := by
  rw [List.filter_append, hl.erase_eq_filter, List.filter_filter, List.append_assoc]
  congr 1
  · apply List.filter_congr
    intro x _
    by_cases hx : x = e
    · simp [hx]
    · simp [hx]
  · simp [he]

theorem timeoutProcessLoop (hs : Shows base n a q l r) (now : Timeval) {fuel : ℕ}
    (hfuel : n < fuel) :
    ∃ base' k d, Timer.timeoutProcessLoop now fuel base = .ok base' ∧ k + d.length ≤ n ∧
      Shows base' k a (fun x ↦ if x ∈ d then none else q x) (l.filter (· ∉ d) ++ d)
        (fun x ↦ if x ∈ d then evTimeoutBit.setWidth 16 else r x) ∧
      d.Nodup ∧ (∀ x, x ∈ d ↔ ∃ u, q x = some u ∧ u ≤ now) ∧
      d.Pairwise fun x y ↦ ∀ u v, q x = some u → q y = some v → u ≤ v := by
  induction fuel generalizing base n q l r with
  | zero => omega
  | succ fuel ih =>
      have hstop : ∀ d : List ι, d = [] → Shows base n a (fun x ↦ if x ∈ d then none else q x)
          (l.filter (· ∉ d) ++ d)
          (fun x ↦ if x ∈ d then evTimeoutBit.setWidth 16 else r x) := by
        rintro d rfl
        simpa using hs
      rcases hs.top with ⟨htop, -, hnone⟩ | ⟨e, u, htop, hu, hle, -⟩
      · refine ⟨base, n, [], ?_, le_rfl, hstop [] rfl, .nil, fun x ↦ ?_, .nil⟩
        · simp only [Timer.timeoutProcessLoop, htop, bind, Except.bind, pure, Except.pure]
        · simp [hnone x]
      · by_cases hnow : now < u
        · refine ⟨base, n, [], ?_, le_rfl, hstop [] rfl, .nil, fun x ↦ ?_, .nil⟩
          · simp only [Timer.timeoutProcessLoop, htop, bind, Except.bind, pure, Except.pure,
              evutilTimercmp_gt, hs.evTimeout hu, hnow, decide_true, if_true]
          · simp only [List.not_mem_nil, false_iff, not_exists, not_and, not_le]
            exact fun v hv ↦ hnow.trans_le (hle x v hv)
        · obtain ⟨base₁, k, hbase₁, hs₁, -, hlt⟩ := hs.eventDel e
          have hlt := hlt (Option.isSome_of_eq_some hu)
          have he : e ∉ l.erase e := hs.nodup.not_mem_erase
          obtain ⟨-, hs₂⟩ := (hs₁.eventActive e evTimeoutBit).2 he
          obtain ⟨base₃, k', d, hbase₃, hk', hs₃, hd, hmem, hord⟩ := ih hs₂ (by omega)
          have hed : e ∉ d := fun h ↦ by
            obtain ⟨v, hv, -⟩ := (hmem e).1 h
            rw [Function.update_self] at hv
            cases hv
          have hne : ∀ x ∈ d, x ≠ e := fun x hx hxe ↦ hed (hxe ▸ hx)
          refine ⟨base₃, k', e :: d, ?_, by rw [List.length_cons]; omega, ?_,
            List.nodup_cons.2 ⟨hed, hd⟩, fun x ↦ ?_,
            List.pairwise_cons.2 ⟨fun y hy v w hv hw ↦ ?_, ?_⟩⟩
          · simp only [Timer.timeoutProcessLoop, htop, bind, Except.bind, evutilTimercmp_gt,
              hs.evTimeout hu, hnow, decide_false, Bool.false_eq_true, if_false, hbase₁, hbase₃]
          · rwa [extend_update, extend_waiting hs.nodup hed, extend_update]
          · by_cases hx : x = e
            · rw [hx]
              exact ⟨fun _ ↦ ⟨u, hu, not_lt.1 hnow⟩, fun _ ↦ List.mem_cons_self⟩
            · rw [List.mem_cons, hmem x, Function.update_of_ne hx]
              exact ⟨fun h ↦ h.resolve_left hx, .inr⟩
          · rw [hu] at hv
            exact Option.some.inj hv ▸ hle y w hw
          · refine hord.imp_of_mem fun {x y} hx hy hxy v w hv hw ↦ hxy v w ?_ ?_
            · rwa [Function.update_of_ne (hne x hx)]
            · rwa [Function.update_of_ne (hne y hy)]

theorem empty_iff (hs : Shows base n a q l r) : n = 0 ↔ ∀ x, q x = none := by
  rcases hs.top with ⟨-, hn, hnone⟩ | ⟨e, u, htop, hu, -⟩
  · exact ⟨fun _ ↦ hnone, fun _ ↦ hn⟩
  · constructor
    · intro hn
      rw [minHeapTop, if_neg (not_not.2 (hs.size.trans hn))] at htop
      cases htop
    · intro hnone
      rw [hnone e] at hu
      cases hu

/-- The events that are due are moved, in the order of their timeouts. -/
theorem timeoutProcess (hs : Shows base n a q l r) (now : Timeval) :
    ∃ base' k d, Timer.timeoutProcess base now = .ok base' ∧ k + d.length ≤ n ∧
      Shows base' k a (fun x ↦ if x ∈ d then none else q x) (l.filter (· ∉ d) ++ d)
        (fun x ↦ if x ∈ d then evTimeoutBit.setWidth 16 else r x) ∧
      d.Nodup ∧ (∀ x, x ∈ d ↔ ∃ u, q x = some u ∧ u ≤ now) ∧
      d.Pairwise fun x y ↦ ∀ u v, q x = some u → q y = some v → u ≤ v := by
  by_cases hn : n = 0
  · refine ⟨base, n, [], by rw [Timer.timeoutProcess, if_pos (hs.size.trans hn)], le_rfl, ?_,
      .nil, fun x ↦ ?_, .nil⟩
    · simpa using hs
    · simp [hs.empty_iff.1 hn x]
  · rw [Timer.timeoutProcess, if_neg (hs.size.symm ▸ hn), hs.size]
    exact hs.timeoutProcessLoop now (Nat.lt_succ_self n)

/-- The first event that waits is disarmed before its callback is called. -/
theorem processActiveHead (hs : Shows base n a q l r) :
    (l = [] ∧ Timer.processActiveHead base = .ok (base, none)) ∨
    (∃ e rest base' k, l = e :: rest ∧
      Timer.processActiveHead base = .ok (base', some (e, r e)) ∧ k ≤ n ∧
      Shows base' k a (Function.update q e none) rest r) := by
  rw [Timer.processActiveHead, hs.activequeue]
  cases l with
  | nil => exact .inl ⟨rfl, rfl⟩
  | cons e rest =>
      obtain ⟨base', k, hbase', hs', hk, -⟩ := hs.eventDel e
      rw [List.erase_cons_head] at hs'
      refine .inr ⟨e, rest, base', k, rfl, ?_, hk, hs'⟩
      simp only [hbase', bind, Except.bind, pure, Except.pure, hs'.evRes]

omit [DecidableEq ι] in
theorem loopDone (hs : Shows base n a q l r) :
    Timer.loopDone base = true ↔ l = [] ∧ n = 0 := by
  rw [Timer.loopDone, eventHaveevents, hs.virtualCount, hs.count, hs.countActive,
    ← List.length_eq_zero_iff]
  simp only [Bool.and_eq_true, Bool.not_eq_true', Bool.or_eq_false_iff, decide_eq_false_iff_not,
    decide_eq_true_eq]
  omega

omit [DecidableEq ι] in
/-- The size of the heap is the number of the events with a timeout. -/
theorem ncard (hs : Shows base n a q l r) : {x | q x ≠ none}.ncard = n := by
  classical
  obtain ⟨b, hb⟩ := hs.queue
  have hset : {x | q x ≠ none} = ((cells b base.timeheap.n).toFinset : Set ι) := by
    ext x
    rw [Set.mem_ofPred_eq, List.coe_toFinset, Set.mem_ofPred_eq, hb.mem_iff, ne_eq, ne_eq,
      hs.idx_iff]
  rw [hset, Set.ncard_coe_finset, List.toFinset_card_of_nodup hb.nodup, cells, List.length_map,
    List.length_range, hs.size]

end Shows

end Cocool.Timer
