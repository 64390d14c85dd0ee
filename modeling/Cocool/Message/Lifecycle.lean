import Cocool.Message.Bus

/-!
# The life of a connection

An item is free, queued for a worker or connected.  Its socket is closed in
the handlers, and `message_dispatch` decides from what they return whether
it goes back to the free list.
-/

namespace Cocool.Message

open Lib

variable {ι : Type*} [DecidableEq ι]

namespace Bus

def Free (s : Bus ι) (free : List ι) (x : ι) : Prop := x ∈ free ∧ s.sockOpen x = false

def Queued (s : Bus ι) (quene : ℕ → List ι) (x : ι) : Prop :=
  (∃ k < msProcessNum, x ∈ quene k ∧ ∀ l, x ∈ quene l → l = k) ∧ s.sockOpen x = true

def Connected (s : Bus ι) (free : List ι) (quene : ℕ → List ι) (x : ι) : Prop :=
  (x ∉ free ∧ ∀ k, x ∉ quene k) ∧ s.sockOpen x = true ∧ s.soketPending x = true

/-- Every item is in exactly one of the three states. -/
def Lifecycle (s : Bus ι) : Prop :=
  ∃ free quene, Represents s.lists free quene ∧ ∀ x,
    (s.Free free x ∧ ¬s.Queued quene x ∧ ¬s.Connected free quene x) ∨
    (¬s.Free free x ∧ s.Queued quene x ∧ ¬s.Connected free quene x) ∨
    (¬s.Free free x ∧ ¬s.Queued quene x ∧ s.Connected free quene x)

/-- An item whose socket the callback closes is put on the free list, once,
and none is there with an open socket. -/
def Releases (msCommond : ℤ) (s : Bus ι) (callback : Callback ι) : Prop :=
  ∀ t, s.step msCommond callback = .ok t → ∃ free quene free' quene',
    Represents s.lists free quene ∧ Represents t.lists free' quene' ∧ ∀ x,
      (s.sockOpen x = true → t.sockOpen x = false → free' = x :: free) ∧
      (t.sockOpen x = true → x ∉ free')

/-- What a handler returns tells whether it closed the socket. -/
def ReturnSafe (msCommond : ℤ) (out : Outcome) : Prop :=
  (msCommond = statusProcess → (out.ilen ≤ 0 ↔ out.ret = -1)) ∧
  (msCommond = statusReadMore → 0 < out.ilen → out.ret ≠ -1)

def OnNoList (s : Bus ι) (x : ι) : Prop :=
  (∀ l, Chain s.lists.pnext s.lists.gPmsQuenes l → x ∉ l) ∧
  ∀ k l, Chain s.lists.pnext (s.lists.phead k) l → x ∉ l

/-- `ms_handler` gets a positive descriptor, and a read event for an item
that is in use. -/
def HandlerSafe (msCommond : ℤ) (s : Bus ι) (x : ι) (fd : ℤ) (ievent : ℕ) (out : Outcome) :
    Prop :=
  0 < fd ∧ (evRead = ievent →
    s.OnNoList x ∧ 0 < (s.item x).isockfd ∧ ReturnSafe msCommond out)

/-- An accept gets a socket, an item and a worker; no worker is woken up to
read a byte; and the handlers run on connected items and tell the
truth. -/
def LifecycleSafe (msCommond : ℤ) (s : Bus ι) : Callback ι → Prop
  | .accept fd _ => 0 ≤ fd ∧ s.lists.gPmsQuenes ≠ none ∧ s.ithreadId < msProcessNum
  | .notify _ ievent _ => evRead &&& ievent ≠ evRead
  | .socket x ievent out => s.HandlerSafe msCommond x (s.item x).soketEvt.evFd ievent out
  | .timer x ievent out => s.HandlerSafe msCommond x (s.item x).timeEvt.evFd ievent out

/-! ## The three states -/

def Placed (s : Bus ι) (free : List ι) (quene : ℕ → List ι) (x : ι) : Prop :=
  s.Free free x ∨ ((∃ k < msProcessNum, x ∈ quene k) ∧ s.sockOpen x = true) ∨
    s.Connected free quene x

omit [DecidableEq ι] in
theorem lifecycle_of_placed {s : Bus ι} {free : List ι} {quene : ℕ → List ι}
    (hlists : Represents s.lists free quene) (hplaced : ∀ x, s.Placed free quene x) :
    s.Lifecycle := by
  refine ⟨free, quene, hlists, fun x ↦ ?_⟩
  rcases hplaced x with hfree | ⟨⟨k, hk, hxk⟩, hopen⟩ | hconn
  · refine .inl ⟨hfree, ?_, ?_⟩
    · rintro ⟨-, hopen⟩
      simp [hfree.2] at hopen
    · rintro ⟨-, hopen, -⟩
      simp [hfree.2] at hopen
  · refine .inr (.inl ⟨?_, ⟨⟨k, hk, hxk, fun l hxl ↦ ?_⟩, hopen⟩, fun hconn ↦ hconn.1.2 k hxk⟩)
    · rintro ⟨-, hclosed⟩
      simp [hopen] at hclosed
    · by_contra hlk
      exact hlists.quene_quene l k hlk x hxl hxk
  · refine .inr (.inr ⟨fun hfree ↦ hconn.1.1 hfree.1, ?_, hconn⟩)
    rintro ⟨⟨k, -, hxk, -⟩, -⟩
    exact hconn.1.2 k hxk

omit [DecidableEq ι] in
theorem Lifecycle.placed {s : Bus ι} (h : s.Lifecycle) :
    ∃ free quene, Represents s.lists free quene ∧ ∀ x, s.Placed free quene x := by
  obtain ⟨free, quene, hlists, hplace⟩ := h
  refine ⟨free, quene, hlists, fun x ↦ ?_⟩
  rcases hplace x with ⟨hfree, -, -⟩ | ⟨-, ⟨⟨k, hk, hxk, -⟩, hopen⟩, -⟩ | ⟨-, -, hconn⟩
  · exact .inl hfree
  · exact .inr (.inl ⟨⟨k, hk, hxk⟩, hopen⟩)
  · exact .inr (.inr hconn)

/-! ## A dispatch -/

inductive DispatchCase (s : Bus ι) (x : ι) (t : Bus ι) : Prop
  | kept (hlists : t.lists = s.lists) (hopen : t.sockOpen = s.sockOpen)
      (hpending : t.soketPending x = true)
      (hother : ∀ y, y ≠ x → t.soketPending y = s.soketPending y)
  | released (hlists : t.lists = msItemFree s.lists x)
      (hopen : t.sockOpen = Function.update s.sockOpen x false)
      (hother : ∀ y, y ≠ x → t.soketPending y = s.soketPending y)

theorem DispatchCase.setItem {s t : Bus ι} {x : ι} (h : DispatchCase s x t) (item : Item) :
    DispatchCase s x (t.setItem x item) := by
  cases h with
  | kept hlists hopen hpending hother => exact .kept hlists hopen hpending hother
  | released hlists hopen hother => exact .released hlists hopen hother

theorem safeClose_lists (s : Bus ι) (x : ι) :
    (s.safeClose x).lists = s.lists ∧ (s.safeClose x).soketPending = s.soketPending := by
  unfold safeClose
  split_ifs <;> exact ⟨rfl, rfl⟩

theorem safeClose_sockOpen {s : Bus ι} {x : ι} (h : 0 < (s.item x).isockfd) :
    (s.safeClose x).sockOpen = Function.update s.sockOpen x false := by
  rw [safeClose, if_pos h]

/-- A handler that went through `SAFE_CLOSE` from `u` on and then reports
an error. -/
theorem dispatchCase_closed {s u t : Bus ι} {x : ι}
    (ht : t = u.safeClose x ∨ t = (u.safeClose x).eventDelTime x ∨
      t = ((u.safeClose x).eventDelSoket x).eventDelTime x)
    (h : 0 < (u.item x).isockfd) (hlists : u.lists = s.lists) (hopen : u.sockOpen = s.sockOpen)
    (hother : ∀ y, y ≠ x → u.soketPending y = s.soketPending y) :
    DispatchCase s x (t.itemFree x) := by
  obtain ⟨hlists', hpending'⟩ := u.safeClose_lists x
  have hopen' := safeClose_sockOpen h
  rcases ht with rfl | rfl | rfl
  · refine .released ?_ (hopen'.trans (by rw [hopen])) fun y hy ↦ ?_
    · simp only [itemFree, hlists', hlists]
    · simp only [itemFree, hpending', hother y hy]
  · refine .released ?_ (hopen'.trans (by rw [hopen])) fun y hy ↦ ?_
    · simp only [itemFree, eventDelTime, hlists', hlists]
    · simp only [itemFree, eventDelTime, hpending', hother y hy]
  · refine .released ?_ (hopen'.trans (by rw [hopen])) fun y hy ↦ ?_
    · simp only [itemFree, eventDelTime, eventDelSoket, hlists', hlists]
    · simp only [itemFree, eventDelTime, eventDelSoket, hpending', Function.update_of_ne hy,
        hother y hy]

theorem dispatchCase_newConnect {s : Bus ι} {x : ι} (out : Outcome)
    (h : 0 < (s.item x).isockfd) :
    DispatchCase s x (freeOnError (msNewConnect s x out) x) := by
  have hpending : ∀ y, y ≠ x → Function.update s.soketPending x true y = s.soketPending y :=
    fun y hy ↦ Function.update_of_ne hy _ _
  simp only [msNewConnect]
  split_ifs
  · exact dispatchCase_closed (.inl rfl) (by simpa [setItem] using h) rfl rfl fun _ _ ↦ rfl
  · exact dispatchCase_closed (.inl rfl) (by simpa [setItem] using h) rfl rfl fun _ _ ↦ rfl
  · exact dispatchCase_closed (.inr (.inl rfl)) (by simpa [setItem] using h) rfl rfl hpending
  · exact dispatchCase_closed (.inr (.inl rfl)) (by simpa [setItem] using h) rfl rfl hpending
  · exact .kept rfl rfl (Function.update_self _ _ _) hpending

theorem dispatchCase {s : Bus ι} {x : ι} {out : Outcome} (h : 0 < (s.item x).isockfd)
    (hpending : s.soketPending x = true) (hret : ReturnSafe (s.item x).istatus out) :
    DispatchCase s x (dispatchItem s x out) := by
  unfold dispatchItem
  split_ifs with h₁ h₂ h₃ h₄
  · exact dispatchCase_newConnect out h
  · have hiff := hret.1 h₂
    by_cases hlen : out.ilen ≤ 0
    · simp only [msProcess, if_pos hlen, freeOnError, hiff.mp hlen]
      exact dispatchCase_closed (.inr (.inr rfl)) h rfl rfl fun _ _ ↦ rfl
    · have hne : ¬-1 = out.ret := fun heq ↦ hlen (hiff.mpr heq.symm)
      simp only [msProcess, if_neg hlen, freeOnError, if_neg hne]
      exact .kept rfl rfl hpending fun _ _ ↦ rfl
  · by_cases hlen : out.ilen ≤ 0
    · simp only [msReadMore, if_pos hlen, freeOnError]
      exact dispatchCase_closed (.inr (.inr rfl)) h rfl rfl fun _ _ ↦ rfl
    · have hne : ¬-1 = out.ret := fun heq ↦ hret.2 h₃ (by omega) heq.symm
      simp only [msReadMore, if_neg hlen, freeOnError, if_neg hne]
      exact .kept rfl rfl hpending fun _ _ ↦ rfl
  · exact (dispatchCase_closed (.inr (.inr rfl)) h rfl rfl fun _ _ ↦ rfl).setItem _
  · exact .kept rfl rfl hpending fun _ _ ↦ rfl

/-! ## One callback -/

theorem accept_placed {s : Bus ι} {free : List ι} {quene : ℕ → List ι}
    (hlists : Represents s.lists free quene) (hplaced : ∀ x, s.Placed free quene x) {fd : ℤ}
    (written : Bool) {x : ι} {lists : Lists ι ℕ} (hfd : 0 ≤ fd) (hid : s.ithreadId < msProcessNum)
    (halloc : msItemAlloc s.lists = (some x, lists)) :
    ∃ rest, free = x :: rest ∧
      Represents (s.accepted fd written x lists).lists rest
        (Function.update quene s.ithreadId (quene s.ithreadId ++ [x])) ∧
      ∀ y, (s.accepted fd written x lists).Placed rest
        (Function.update quene s.ithreadId (quene s.ithreadId ++ [x])) y := by
  obtain ⟨rest, rfl, hlists'⟩ := hlists.accepted fd written halloc
  refine ⟨rest, rfl, hlists', fun y ↦ ?_⟩
  by_cases hyx : y = x
  · subst hyx
    exact .inr (.inl ⟨⟨s.ithreadId, hid, by simp⟩, by simp [accepted, hfd]⟩)
  · have hmem := mem_pushed quene s.ithreadId hyx
    have hopen : (s.accepted fd written x lists).sockOpen y = s.sockOpen y :=
      Function.update_of_ne hyx _ _
    have hpending : (s.accepted fd written x lists).soketPending y = s.soketPending y := rfl
    have hold := hplaced y
    simp only [Placed, Free, Connected, List.mem_cons, hyx, false_or] at hold
    simp only [Placed, Free, Connected, hmem, hopen, hpending]
    exact hold

theorem DispatchCase.placed {s t : Bus ι} {x : ι} (h : DispatchCase s x t) {free : List ι}
    {quene : ℕ → List ι} (hlists : Represents s.lists free quene)
    (hplaced : ∀ y, s.Placed free quene y) (hx : x ∉ free ∧ ∀ k, x ∉ quene k) :
    ∃ free', (free' = free ∧ t.sockOpen = s.sockOpen ∨
        free' = x :: free ∧ t.sockOpen = Function.update s.sockOpen x false) ∧
      Represents t.lists free' quene ∧ ∀ y, t.Placed free' quene y := by
  have hopen_x : s.sockOpen x = true := by
    rcases hplaced x with hfree | ⟨⟨k, -, hk⟩, -⟩ | hconn
    · exact absurd hfree.1 hx.1
    · exact absurd hk (hx.2 k)
    · exact hconn.2.1
  cases h with
  | kept hl hopen hpending hother =>
      refine ⟨free, .inl ⟨rfl, hopen⟩, hl ▸ hlists, fun y ↦ ?_⟩
      by_cases hyx : y = x
      · subst hyx
        exact .inr (.inr ⟨hx, by rw [hopen]; exact hopen_x, hpending⟩)
      · have hold := hplaced y
        simp only [Placed, Free, Connected, hopen, hother y hyx] at hold ⊢
        exact hold
  | released hl hopen hother =>
      refine ⟨x :: free, .inr ⟨rfl, hopen⟩, hl ▸ hlists.release hx.1 hx.2, fun y ↦ ?_⟩
      by_cases hyx : y = x
      · subst hyx
        exact .inl ⟨List.mem_cons_self, by rw [hopen, Function.update_self]⟩
      · have hold := hplaced y
        simp only [Placed, Free, Connected] at hold
        simp only [Placed, Free, Connected, hopen, hother y hyx, Function.update_of_ne hyx,
          List.mem_cons, hyx, false_or]
        exact hold

def Moved (s t : Bus ι) (free : List ι) : Prop :=
  ∃ free' quene', Represents t.lists free' quene' ∧ (∀ y, t.Placed free' quene' y) ∧
    ∀ y, s.sockOpen y = true → t.sockOpen y = false → free' = y :: free

theorem msHandler_moved {msCommond : ℤ} {s : Bus ι} {x : ι} {fd : ℤ} {ievent : ℕ}
    {out : Outcome} {free : List ι} {quene : ℕ → List ι} (hlists : Represents s.lists free quene)
    (hplaced : ∀ y, s.Placed free quene y) (hsafe : s.HandlerSafe msCommond x fd ievent out) :
    ∃ t, msHandler msCommond s fd ievent x out = .ok t ∧ Moved s t free := by
  obtain ⟨hfd, hread⟩ := hsafe
  by_cases hev : evRead = ievent
  · obtain ⟨hno, hsock, hret⟩ := hread hev
    have hx : x ∉ free ∧ ∀ k, x ∉ quene k :=
      ⟨hno.1 free hlists.chain_free, fun k ↦ hno.2 k _ (hlists.chain_quene k)⟩
    have hpending : s.soketPending x = true := by
      rcases hplaced x with hfree | ⟨⟨k, -, hk⟩, -⟩ | hconn
      · exact absurd hfree.1 hx.1
      · exact absurd hk (hx.2 k)
      · exact hconn.2.2
    have hcase : DispatchCase (s.setItem x { s.item x with istatus := msCommond }) x
        (dispatchItem (s.setItem x { s.item x with istatus := msCommond }) x out) :=
      dispatchCase (by simpa [setItem] using hsock) hpending (by simpa [setItem] using hret)
    obtain ⟨free', hfree', hlists', hplaced'⟩ := hcase.placed hlists hplaced hx
    refine ⟨_, ?_, free', quene, hlists', hplaced', fun y hy hy' ↦ ?_⟩
    · simp only [msHandler, if_pos hfd, if_pos hev, messageDispatch]
    · rcases hfree' with ⟨-, hopen⟩ | ⟨hcons, hopen⟩
      · rw [hopen] at hy'
        exact absurd (hy.symm.trans hy') (by decide)
      · by_cases hyx : y = x
        · rw [hyx, hcons]
        · rw [hopen, Function.update_of_ne hyx] at hy'
          exact absurd (hy.symm.trans hy') (by decide)
  · have hev' : ¬evTimeout = evRead := by decide
    refine ⟨s, ?_, free, quene, hlists, hplaced, fun y hy hy' ↦ ?_⟩
    · simp only [msHandler, if_pos hfd, if_neg hev, if_neg hev']
    · exact absurd (hy.symm.trans hy') (by decide)

theorem step_moved {msCommond : ℤ} {s : Bus ι} {callback : Callback ι} {free : List ι}
    {quene : ℕ → List ι} (hlists : Represents s.lists free quene)
    (hplaced : ∀ y, s.Placed free quene y) (hsafe : s.LifecycleSafe msCommond callback) :
    s.step msCommond callback = .error .unregistered ∨
      ∃ t, s.step msCommond callback = .ok t ∧ Moved s t free := by
  cases callback with
  | accept fd written =>
      obtain ⟨hfd, hitem, hid⟩ := hsafe
      have hhead := hlists.chain_free.head_eq
      cases hfree : s.lists.gPmsQuenes with
      | none => exact absurd hfree hitem
      | some x =>
          have halloc : msItemAlloc s.lists =
              (some x, { s.lists with gPmsQuenes := s.lists.pnext x }) := by
            simp only [msItemAlloc, hfree]
          obtain ⟨rest, rfl, hlists', hplaced'⟩ :=
            accept_placed hlists hplaced written hfd hid halloc
          refine .inr ⟨_, evAcceptCb_of_alloc hid halloc, rest, _, hlists', hplaced',
            fun y hy hy' ↦ ?_⟩
          by_cases hyx : y = x
          · subst hyx
            simp [accepted, hfd] at hy'
          · have hsame : s.sockOpen y = false := by simpa [accepted, hyx] using hy'
            cases hy.symm.trans hsame
  | notify k ievent out =>
      simp only [step, notified]
      split_ifs with hk
      · refine .inr ⟨s, ?_, free, quene, hlists, hplaced, fun y hy hy' ↦ ?_⟩
        · simp only [messageNotify, if_neg hsafe, Except.map]
        · exact absurd (hy.symm.trans hy') (by decide)
      · exact .inl rfl
  | socket x ievent out =>
      simp only [step]
      split_ifs with hx
      · exact .inr (msHandler_moved hlists hplaced hsafe)
      · exact .inl rfl
  | timer x ievent out =>
      simp only [step]
      split_ifs with hx
      · exact .inr (msHandler_moved hlists hplaced hsafe)
      · exact .inl rfl

theorem step_lifecycle {msCommond : ℤ} {s t : Bus ι} {callback : Callback ι} (hs : s.Lifecycle)
    (hsafe : s.LifecycleSafe msCommond callback) (h : s.step msCommond callback = .ok t) :
    t.Lifecycle := by
  obtain ⟨free, quene, hlists, hplaced⟩ := hs.placed
  rcases step_moved hlists hplaced hsafe with herr | ⟨u, hu, free', quene', hlists', hplaced', -⟩
  · cases herr.symm.trans h
  · obtain rfl := Except.ok.inj (hu.symm.trans h)
    exact lifecycle_of_placed hlists' hplaced'

theorem releases_of_lifecycleSafe {msCommond : ℤ} {s : Bus ι} {callback : Callback ι}
    (hs : s.Lifecycle) (hsafe : s.LifecycleSafe msCommond callback) :
    s.Releases msCommond callback := by
  intro t h
  obtain ⟨free, quene, hlists, hplaced⟩ := hs.placed
  rcases step_moved hlists hplaced hsafe with
    herr | ⟨u, hu, free', quene', hlists', hplaced', hmoved⟩
  · cases herr.symm.trans h
  · obtain rfl := Except.ok.inj (hu.symm.trans h)
    refine ⟨free, quene, free', quene', hlists, hlists', fun x ↦ ⟨hmoved x, fun hopen hx ↦ ?_⟩⟩
    rcases hplaced' x with hfree | ⟨⟨k, -, hk⟩, -⟩ | hconn
    · cases hopen.symm.trans hfree.2
    · exact hlists'.free_quene x hx k hk
    · exact hconn.1.1 hx

end Bus

/-- From any state in which each item has its place, a run whose callbacks
all meet the condition keeps it so, releases what it closes, and does not
fault. -/
theorem lifecycle_of_lifecycleSafe (msCommond : ℤ) {s : Bus ι} (hs : s.Lifecycle)
    {callbacks : List (Callback ι)}
    (h : EachStep (Bus.step msCommond) (Bus.LifecycleSafe msCommond) s callbacks) :
    Always (Bus.step msCommond) Bus.Lifecycle s callbacks ∧
    EachStep (Bus.step msCommond) (Bus.Releases msCommond) s callbacks ∧
    ∀ e, run (Bus.step msCommond) s callbacks = .error e → e = .unregistered := by
  have halways := always_of_eachStep (fun _ _ _ ↦ Bus.step_lifecycle) hs h
  refine ⟨halways, ?_, fun e he ↦ ?_⟩
  · exact (halways.andEachStep h).mono fun _ _ ⟨ht, hsafe⟩ ↦ Bus.releases_of_lifecycleSafe ht hsafe
  · by_contra hne
    refine run_ne_error (fun _ _ _ ↦ Bus.step_lifecycle) (fun t a ht hsafe ↦ ?_) hs h he
    obtain ⟨free, quene, hlists, hplaced⟩ := ht.placed
    rcases Bus.step_moved hlists hplaced hsafe with herr | ⟨u, hu, -⟩
    · rw [herr]
      exact fun heq ↦ hne (Except.error.inj heq).symm
    · rw [hu]
      exact fun heq ↦ by cases heq

def connectedBus : Bus (Fin 1) :=
  { oneItemBus with
    lists := ⟨fun _ ↦ none, none, fun _ ↦ none, fun _ ↦ none⟩
    item := fun _ ↦ ⟨⟨0x1000, 7, evRead + evPersist⟩, ⟨0x1000, 0, evTimeout⟩,
      ⟨msTimeoutTime, 0⟩, 7, 0, 0, 0, 0⟩
    soketPending := fun _ ↦ true
    timePending := fun _ ↦ true
    sockOpen := fun _ ↦ true }

theorem connectedBus_represents : Represents connectedBus.lists [] fun _ ↦ [] := .of_free rfl

theorem oneItemBus_lifecycle : oneItemBus.Lifecycle := by
  refine Bus.lifecycle_of_placed oneItemBus_represents fun x ↦ .inl ⟨?_, rfl⟩
  simp [Subsingleton.elim x 0]

theorem connectedBus_lifecycle : connectedBus.Lifecycle := by
  apply Bus.lifecycle_of_placed connectedBus_represents
  exact fun _ ↦ .inr (.inr ⟨⟨by simp, by simp⟩, rfl, rfl⟩)

omit [DecidableEq ι] in
theorem not_lifecycle {s : Bus ι} {x : ι} (hfree : s.lists.gPmsQuenes = none)
    (hx : s.sockOpen x = false) : ¬s.Lifecycle := by
  intro hs
  obtain ⟨free, quene, hlists, hplaced⟩ := hs.placed
  have hnil : free = [] := (hfree ▸ hlists.chain_free).eq_nil
  rcases hplaced x with hmem | ⟨-, hopen⟩ | ⟨-, hopen, -⟩
  · simpa [hnil] using hmem.1
  · cases hx.symm.trans hopen
  · cases hx.symm.trans hopen

/-- The client of a connected item goes away while `ms_process` happens to
return 0, and an accept that fails. -/
theorem lifecycle_lost_item :
    connectedBus.Lifecycle ∧ oneItemBus.Lifecycle ∧
    ¬Always (Bus.step statusProcess) Bus.Lifecycle connectedBus
      [.socket 0 evRead quietOutcome] ∧
    ¬Always (Bus.step statusProcess) Bus.Lifecycle oneItemBus [.accept (-1) true] :=
  ⟨connectedBus_lifecycle, oneItemBus_lifecycle,
    fun h ↦ not_lifecycle (x := 0) rfl rfl (h.2 _ rfl),
    fun h ↦ not_lifecycle (x := 0) rfl rfl (h.2 _ rfl)⟩

theorem lifecycle_of_lifecycleSafe_one :
    Always (Bus.step statusProcess) Bus.Lifecycle connectedBus
      [.socket 0 evRead { quietOutcome with ret := -1 }] := by
  have hno : connectedBus.OnNoList 0 :=
    ⟨fun l hl ↦ by simp [Chain.eq_nil hl], fun _ l hl ↦ by simp [Chain.eq_nil hl]⟩
  have hsafe : EachStep (Bus.step statusProcess) (Bus.LifecycleSafe statusProcess) connectedBus
      [.socket 0 evRead { quietOutcome with ret := -1 }] :=
    ⟨⟨by decide, fun _ ↦ ⟨hno, by decide, fun _ ↦ by decide, fun h ↦ absurd h (by decide)⟩⟩,
      fun _ _ ↦ trivial⟩
  exact (lifecycle_of_lifecycleSafe statusProcess connectedBus_lifecycle hsafe).1

end Cocool.Message
