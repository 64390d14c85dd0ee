import Cocool.Message.Lifecycle

/-!
# Recycled items

What the next client finds in an item is what the last one left there,
except for the event structures, which `ev_accept_cb` clears.  Only the
timeout branch of `message_dispatch` resets an item before it frees it.
-/

namespace Cocool.Message

open Lib

variable {ι : Type*} [DecidableEq ι]

/-- What an item carries over from one client to the next. -/
structure Carried where
  istatus : ℤ
  iwriteIdx : ℤ
  timeval : Timeval
  soketEvt : Event
  timeEvt : Event
  deriving DecidableEq

def Item.carried (item : Item) : Carried :=
  ⟨item.istatus, item.iwriteIdx, item.timeval, item.soketEvt, item.timeEvt⟩

def Carried.fresh : Carried := ⟨0, 0, ⟨msTimeoutTime, 0⟩, Event.zero, Event.zero⟩

theorem msItemInit_carried (s : Bus ι) (x : ι) :
    ((msItemInit s x).item x).carried = Carried.fresh := by
  simp [msItemInit, Bus.setItem, Item.carried, Carried.fresh]

/-- The fields that `ev_accept_cb` leaves alone are as `ms_item_init` sets
them. -/
structure Item.Clean (item : Item) : Prop where
  istatus : item.istatus = 0
  iwriteIdx : item.iwriteIdx = 0
  timeval : item.timeval = ⟨msTimeoutTime, 0⟩

namespace Bus

def HandsOutFresh (s : Bus ι) : Prop :=
  ∀ fd written t, evAcceptCb s fd written = .ok t →
    ∀ x, s.lists.gPmsQuenes = some x → (t.item x).carried = Carried.fresh

/-- Two histories that end with the same item in front of the free list:
the next client finds in both what `ms_item_init` leaves. -/
def Recycled (msCommond : ℤ) (s s' : Bus ι) (callbacks callbacks' : List (Callback ι)) : Prop :=
  ∀ t t', run (Bus.step msCommond) s callbacks = .ok t →
    run (Bus.step msCommond) s' callbacks' = .ok t' →
    ∀ x, t.lists.gPmsQuenes = some x → t'.lists.gPmsQuenes = some x →
    ∀ fd written u, evAcceptCb t fd written = .ok u →
    ∀ fd' written' u', evAcceptCb t' fd' written' = .ok u' →
      (u.item x).carried = (u'.item x).carried ∧ (u.item x).carried = Carried.fresh

/-- The lists are in order, the items on the free list clean, and events
pending only for items on no list. -/
def CleanFree (s : Bus ι) : Prop :=
  ∃ free quene, Represents s.lists free quene ∧ (∀ x ∈ free, (s.item x).Clean) ∧
    ∀ x, s.soketPending x = true ∨ s.timePending x = true → x ∉ free ∧ ∀ k, x ∉ quene k

/-- A handler reports no error, so that the item stays in use. -/
def NoRelease (msCommond : ℤ) (out : Outcome) : Prop :=
  (msCommond = statusNewConnect → 0 ≤ out.assignSoket ∧ 0 ≤ out.addSoket ∧
    0 ≤ out.assignTime ∧ 0 ≤ out.addTime) ∧
  (msCommond = statusProcess → out.ret ≠ -1) ∧
  (msCommond = statusReadMore → 0 < out.ilen ∧ out.ret ≠ -1)

/-- No item is released other than by the timeout branch. -/
def RecycleSafe (msCommond : ℤ) (_ : Bus ι) : Callback ι → Prop
  | .accept _ _ => True
  | .notify _ _ _ => True
  | .socket _ ievent out | .timer _ ievent out =>
      evRead = ievent → msCommond = statusTimeout ∨ NoRelease msCommond out

/-! ## A dispatch touches its own item -/

/-- `t` differs from `s` at most in the item and events of `x`. -/
structure OnlyItem (x : ι) (s t : Bus ι) : Prop where
  item : ∀ y, y ≠ x → t.item y = s.item y
  soketPending : ∀ y, y ≠ x → t.soketPending y = s.soketPending y
  timePending : ∀ y, y ≠ x → t.timePending y = s.timePending y

namespace OnlyItem

variable {x : ι} {s t : Bus ι}

omit [DecidableEq ι] in
theorem refl (x : ι) (s : Bus ι) : OnlyItem x s s :=
  ⟨fun _ _ ↦ rfl, fun _ _ ↦ rfl, fun _ _ ↦ rfl⟩

theorem setItem (h : OnlyItem x s t) (item : Item) : OnlyItem x s (t.setItem x item) :=
  ⟨fun y hy ↦ (Function.update_of_ne hy _ _).trans (h.item y hy), h.soketPending, h.timePending⟩

theorem soketUpdate (h : OnlyItem x s t) (b : Bool) :
    OnlyItem x s { t with soketPending := Function.update t.soketPending x b } :=
  ⟨h.item, fun y hy ↦ (Function.update_of_ne hy _ _).trans (h.soketPending y hy), h.timePending⟩

theorem timeUpdate (h : OnlyItem x s t) (b : Bool) :
    OnlyItem x s { t with timePending := Function.update t.timePending x b } :=
  ⟨h.item, h.soketPending, fun y hy ↦ (Function.update_of_ne hy _ _).trans (h.timePending y hy)⟩

theorem dispatchClosed (x : ι) (s : Bus ι) : DispatchClosed x (OnlyItem x s) where
  setItem _ item h _ _ := h.setItem item
  sockOpen _ h := ⟨h.item, h.soketPending, h.timePending⟩
  soketPending _ b h := h.soketUpdate b
  timePending _ b h := h.timeUpdate b
  readInto _ _ _ h := ⟨h.item, h.soketPending, h.timePending⟩
  itemFree _ h := ⟨h.item, h.soketPending, h.timePending⟩

end OnlyItem

theorem onlyItem_dispatchItem (s : Bus ι) (x : ι) (out : Outcome) :
    OnlyItem x s (dispatchItem s x out) :=
  (OnlyItem.dispatchClosed x s).dispatchItem (OnlyItem.refl x s) out

/-! ## What a dispatch does to the lists -/

theorem hangUp_lists (s : Bus ι) (x : ι) :
    (((s.safeClose x).eventDelSoket x).eventDelTime x).lists = s.lists :=
  (s.safeClose_lists x).1

theorem dispatchItem_kept {s : Bus ι} {x : ι} {out : Outcome}
    (htimeout : (s.item x).istatus ≠ statusTimeout) (h : NoRelease (s.item x).istatus out) :
    (dispatchItem s x out).lists = s.lists := by
  obtain ⟨hnew, hprocess, hmore⟩ := h
  unfold dispatchItem
  split_ifs with h₁ h₂ h₃
  · obtain ⟨hassign, hadd, hassign', hadd'⟩ := hnew h₁
    simp only [msNewConnect, if_neg (Int.not_lt.mpr hassign), if_neg (Int.not_lt.mpr hadd),
      if_neg (Int.not_lt.mpr hassign'), if_neg (Int.not_lt.mpr hadd')]
    rfl
  · have hne : ¬-1 = out.ret := fun heq ↦ hprocess h₂ heq.symm
    by_cases hlen : out.ilen ≤ 0
    · simp only [msProcess, if_pos hlen, freeOnError, if_neg hne]
      exact hangUp_lists s x
    · simp only [msProcess, if_neg hlen, freeOnError, if_neg hne]
      rfl
  · obtain ⟨hlen, hret⟩ := hmore h₃
    have hne : ¬-1 = out.ret := fun heq ↦ hret heq.symm
    simp only [msReadMore, if_neg (Int.not_le.mpr hlen), freeOnError, if_neg hne]
  · rfl

theorem dispatchItem_timeout {s : Bus ι} {x : ι} (out : Outcome)
    (h : (s.item x).istatus = statusTimeout) :
    (dispatchItem s x out).lists = msItemFree s.lists x ∧
      ((dispatchItem s x out).item x).Clean ∧
      (dispatchItem s x out).soketPending x = false ∧
      (dispatchItem s x out).timePending x = false := by
  have h₁ : ¬statusTimeout = statusNewConnect := by decide
  have h₂ : ¬statusTimeout = statusProcess := by decide
  have h₃ : ¬statusTimeout = statusReadMore := by decide
  simp only [dispatchItem, h, if_neg h₁, if_neg h₂, if_neg h₃, if_pos]
  refine ⟨?_, ?_, ?_, ?_⟩
  · exact congrArg (msItemFree · x) (hangUp_lists s x)
  · simp only [itemFree, msTimeoutProcess, msItemInit, setItem, Function.update_self]
    exact ⟨rfl, rfl, rfl⟩
  · simp [itemFree, msTimeoutProcess, msItemInit, setItem, eventDelTime, eventDelSoket]
  · simp [itemFree, msTimeoutProcess, msItemInit, setItem, eventDelTime]

/-! ## One callback -/

omit [DecidableEq ι] in
/-- Events stay off the lists when a callback moves only its own item. -/
theorem OnlyItem.pendingOff {s t : Bus ι} {x : ι} {free free' : List ι}
    {quene quene' : ℕ → List ι} (h : OnlyItem x s t)
    (hfree : ∀ y, y ≠ x → (y ∈ free' ↔ y ∈ free))
    (hquene : ∀ y, y ≠ x → ∀ k, y ∈ quene' k ↔ y ∈ quene k)
    (hpending : ∀ y, s.soketPending y = true ∨ s.timePending y = true →
      y ∉ free ∧ ∀ k, y ∉ quene k)
    (hx : t.soketPending x = true ∨ t.timePending x = true → x ∉ free' ∧ ∀ k, x ∉ quene' k) :
    ∀ y, t.soketPending y = true ∨ t.timePending y = true → y ∉ free' ∧ ∀ k, y ∉ quene' k := by
  intro y hy
  by_cases hyx : y = x
  · subst hyx
    exact hx hy
  · rw [h.soketPending y hyx, h.timePending y hyx] at hy
    simp only [hfree y hyx, hquene y hyx]
    exact hpending y hy

omit [DecidableEq ι] in
theorem OnlyItem.cleanFree {s t : Bus ι} {x : ι} {free free' : List ι} {quene quene' : ℕ → List ι}
    (h : OnlyItem x s t) (hlists : Represents t.lists free' quene')
    (hfree : ∀ y, y ≠ x → (y ∈ free' ↔ y ∈ free))
    (hquene : ∀ y, y ≠ x → ∀ k, y ∈ quene' k ↔ y ∈ quene k)
    (hclean : ∀ y ∈ free, (s.item y).Clean)
    (hpending : ∀ y, s.soketPending y = true ∨ s.timePending y = true →
      y ∉ free ∧ ∀ k, y ∉ quene k)
    (hx : x ∈ free' → (t.item x).Clean)
    (hx' : t.soketPending x = true ∨ t.timePending x = true → x ∉ free' ∧ ∀ k, x ∉ quene' k) :
    t.CleanFree := by
  refine ⟨free', quene', hlists, fun y hy ↦ ?_, h.pendingOff hfree hquene hpending hx'⟩
  by_cases hyx : y = x
  · subst hyx
    exact hx hy
  · rw [h.item y hyx]
    exact hclean y ((hfree y hyx).mp hy)

theorem accepted_cleanFree {s : Bus ι} (hs : s.CleanFree) {fd : ℤ} {written : Bool} {x : ι}
    {lists : Lists ι ℕ} (halloc : msItemAlloc s.lists = (some x, lists)) :
    (s.accepted fd written x lists).CleanFree := by
  obtain ⟨free, quene, hlists, hclean, hpending⟩ := hs
  obtain ⟨rest, rfl, hlists'⟩ := hlists.accepted fd written halloc
  have hx : x ∉ rest := (List.nodup_cons.mp hlists.chain_free.nodup).1
  have honly : OnlyItem x s (s.accepted fd written x lists) :=
    ⟨fun _ hy ↦ Function.update_of_ne hy _ _, fun _ _ ↦ rfl, fun _ _ ↦ rfl⟩
  refine honly.cleanFree hlists' (fun y hy ↦ ?_) (fun y hy ↦ mem_pushed quene _ hy) hclean
    hpending (fun hmem ↦ absurd hmem hx) fun hpend ↦ ?_
  · simp [hy]
  · exact absurd List.mem_cons_self (hpending x hpend).1

theorem dispatchItem_cleanFree {s : Bus ι} {x : ι} {out : Outcome} (hs : s.CleanFree)
    (hx : s.soketPending x = true ∨ s.timePending x = true)
    (hsafe : (s.item x).istatus = statusTimeout ∨ NoRelease (s.item x).istatus out) :
    (dispatchItem s x out).CleanFree := by
  obtain ⟨free, quene, hlists, hclean, hpending⟩ := hs
  have hno := hpending x hx
  have honly := onlyItem_dispatchItem s x out
  by_cases htimeout : (s.item x).istatus = statusTimeout
  · obtain ⟨hfree, hfresh, hsoket, htime⟩ := dispatchItem_timeout out htimeout
    have hlists' : Represents (dispatchItem s x out).lists (x :: free) quene := by
      rw [hfree]
      exact hlists.release hno.1 hno.2
    refine honly.cleanFree hlists' (fun y hy ↦ ?_) (fun _ _ _ ↦ Iff.rfl) hclean hpending
      (fun _ ↦ hfresh) fun hpend ↦ ?_
    · simp [hy]
    · rw [hsoket, htime] at hpend
      rcases hpend with hpend | hpend <;> cases hpend
  · have hkept := dispatchItem_kept htimeout (hsafe.resolve_left htimeout)
    exact honly.cleanFree (hkept.symm ▸ hlists) (fun _ _ ↦ Iff.rfl) (fun _ _ _ ↦ Iff.rfl) hclean
      hpending (fun hmem ↦ absurd hmem hno.1) fun _ ↦ hno

theorem setItem_cleanFree {s : Bus ι} {x : ι} {item : Item} (hs : s.CleanFree)
    (hx : s.soketPending x = true ∨ s.timePending x = true) : (s.setItem x item).CleanFree := by
  obtain ⟨free, quene, hlists, hclean, hpending⟩ := hs
  have hno := hpending x hx
  exact ((OnlyItem.refl x s).setItem item).cleanFree hlists (fun _ _ ↦ Iff.rfl)
    (fun _ _ _ ↦ Iff.rfl) hclean hpending (fun hmem ↦ absurd hmem hno.1) fun _ ↦ hno

theorem msHandler_cleanFree {msCommond : ℤ} {s t : Bus ι} {x : ι} {fd : ℤ} {ievent : ℕ}
    {out : Outcome} (hs : s.CleanFree) (hx : s.soketPending x = true ∨ s.timePending x = true)
    (hsafe : evRead = ievent → msCommond = statusTimeout ∨ NoRelease msCommond out)
    (h : msHandler msCommond s fd ievent x out = .ok t) : t.CleanFree := by
  rcases msHandler_ok h with ⟨hev, rfl⟩ | ⟨-, rfl⟩
  · have hstatus : ((s.setItem x { s.item x with istatus := msCommond }).item x).istatus =
        msCommond := by simp [setItem]
    apply dispatchItem_cleanFree (setItem_cleanFree hs hx) hx
    rw [hstatus]
    exact hsafe hev
  · exact hs

theorem step_cleanFree {msCommond : ℤ} {s t : Bus ι} {callback : Callback ι} (hs : s.CleanFree)
    (hsafe : s.RecycleSafe msCommond callback) (h : s.step msCommond callback = .ok t) :
    t.CleanFree := by
  cases stepCase h with
  | accept fd written x lists hid halloc => exact accepted_cleanFree hs halloc
  | notify => exact hs
  | socket x ievent out t hx h => exact msHandler_cleanFree hs (.inl hx) hsafe h.choose_spec
  | timer x ievent out t hx h => exact msHandler_cleanFree hs (.inr hx) hsafe h.choose_spec

theorem CleanFree.handsOutFresh {s : Bus ι} (hs : s.CleanFree) : s.HandsOutFresh := by
  obtain ⟨free, quene, hlists, hclean, -⟩ := hs
  intro fd written t ht x hx
  obtain ⟨-, y, lists, halloc, rfl⟩ := evAcceptCb_ok ht
  obtain ⟨rest, rfl, -⟩ := hlists.accepted fd written halloc
  obtain rfl : y = x := Option.some.inj (hlists.chain_free.1.symm.trans hx)
  obtain ⟨hstatus, hidx, htimeval⟩ := hclean y List.mem_cons_self
  simp [accepted, Item.carried, Carried.fresh, hstatus, hidx, htimeval]

end Bus

/-- From states in which the free items are clean, runs that release items
only through the timeout branch hand out items that are as good as new, so
that an item looks the same after any two of them. -/
theorem recycled_of_recycleSafe (msCommond : ℤ) {s s' : Bus ι} (hs : s.CleanFree)
    (hs' : s'.CleanFree) {callbacks callbacks' : List (Callback ι)}
    (h : EachStep (Bus.step msCommond) (Bus.RecycleSafe msCommond) s callbacks)
    (h' : EachStep (Bus.step msCommond) (Bus.RecycleSafe msCommond) s' callbacks') :
    Always (Bus.step msCommond) Bus.HandsOutFresh s callbacks ∧
    Always (Bus.step msCommond) Bus.HandsOutFresh s' callbacks' ∧
    Bus.Recycled msCommond s s' callbacks callbacks' := by
  have hfresh := (always_of_eachStep (fun _ _ _ ↦ Bus.step_cleanFree) hs h).mono
    fun _ ↦ Bus.CleanFree.handsOutFresh
  have hfresh' := (always_of_eachStep (fun _ _ _ ↦ Bus.step_cleanFree) hs' h').mono
    fun _ ↦ Bus.CleanFree.handsOutFresh
  refine ⟨hfresh, hfresh', fun t t' ht ht' x hx hx' fd written u hu fd' written' u' hu' ↦ ?_⟩
  have hnew := hfresh.last ht fd written u hu x hx
  have hnew' := hfresh'.last ht' fd' written' u' hu' x hx'
  exact ⟨hnew.trans hnew'.symm, hnew⟩

theorem oneItemBus_cleanFree : (msItemInit oneItemBus 0).CleanFree := by
  refine ⟨[0], fun _ ↦ [], oneItemBus_represents, fun x hx ↦ ?_, fun x hx ↦ ?_⟩
  · obtain rfl : x = 0 := List.mem_singleton.mp hx
    exact ⟨rfl, rfl, rfl⟩
  · rcases hx with hx | hx <;> cases hx

theorem connectedBus_cleanFree : connectedBus.CleanFree :=
  ⟨[], fun _ ↦ [], connectedBus_represents, by simp, by simp⟩

/-- An item that no client used before, in memory that is all zero, and one
that went back to the free list after a failed read. -/
theorem recycled_never_used_and_read :
    ¬Bus.Recycled statusProcess oneItemBus oneItemBus [] [] ∧
    ¬Bus.Recycled statusProcess (msItemInit oneItemBus 0) connectedBus []
      [.socket 0 evRead { quietOutcome with ret := -1 }] := by
  refine ⟨fun h ↦ ?_, fun h ↦ ?_⟩
  · have hzero := (h _ _ rfl rfl 0 rfl rfl 7 true _ rfl 7 true _ rfl).2
    exact absurd (congrArg Carried.timeval hzero) (by decide)
  · have hread := (h _ _ rfl rfl 0 rfl rfl 7 true _ rfl 7 true _ rfl).1
    exact absurd (congrArg Carried.istatus hread) (by decide)

theorem recycled_of_recycleSafe_timeout :
    Bus.Recycled statusTimeout (msItemInit oneItemBus 0) connectedBus []
      [.socket 0 evRead quietOutcome] := by
  have hsafe : EachStep (Bus.step statusTimeout) (Bus.RecycleSafe statusTimeout) connectedBus
      [.socket 0 evRead quietOutcome] := ⟨fun _ ↦ .inl rfl, fun _ _ ↦ trivial⟩
  have hnone : EachStep (Bus.step statusTimeout) (Bus.RecycleSafe statusTimeout)
      (msItemInit oneItemBus 0) [] := trivial
  exact (recycled_of_recycleSafe statusTimeout oneItemBus_cleanFree connectedBus_cleanFree
    hnone hsafe).2.2

end Cocool.Message
