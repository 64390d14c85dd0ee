import Cocool.Message.Recycle

/-!
# Events and the items they are about

A connected item is the argument of two events.  `ms_new_connect` adds them
one after the other and has to take back what it added when a later step
fails; `ms_handler` turns the event that fired into the status that
`message_dispatch` goes by.
-/

namespace Cocool.Message

open Lib

variable {ι : Type*} [DecidableEq ι]

namespace Bus

/-! ## Adding the events of a new connection -/

/-- A failed `ms_new_connect` leaves, after the dispatch, a free item that
is closed and has no pending event; after a successful one the socket is
open and both events are pending. -/
def NewConnectClean (s : Bus ι) (x : ι) (out : Outcome) : Prop :=
  ((msNewConnect s x out).1 = -1 →
    (dispatchItem s x out).lists = msItemFree s.lists x ∧
      (dispatchItem s x out).sockOpen x = false ∧
      (dispatchItem s x out).soketPending x = false ∧
      (dispatchItem s x out).timePending x = false) ∧
  ((msNewConnect s x out).1 ≠ -1 →
    (dispatchItem s x out).sockOpen x = true ∧
      (dispatchItem s x out).soketPending x = true ∧
      (dispatchItem s x out).timePending x = true)

def NoneFails (out : Outcome) : Prop :=
  0 ≤ out.assignSoket ∧ 0 ≤ out.addSoket ∧ 0 ≤ out.assignTime ∧ 0 ≤ out.addTime

instance (out : Outcome) : Decidable (NoneFails out) := inferInstanceAs (Decidable (_ ∧ _))

def SoketFails (out : Outcome) : Prop := out.assignSoket < 0 ∨ out.addSoket < 0

theorem SoketFails.not_noneFails {out : Outcome} (h : SoketFails out) : ¬NoneFails out := by
  rintro ⟨hassign, hadd, -⟩
  rcases h with h | h
  · exact absurd h (Int.not_lt.mpr hassign)
  · exact absurd h (Int.not_lt.mpr hadd)

/-- No call fails and the socket is open, or a call on `soket_evt` fails,
for an item that `SAFE_CLOSE` can close and that has no event left over. -/
def NewConnectSafe (s : Bus ι) (x : ι) (out : Outcome) : Prop :=
  (NoneFails out ∧ s.sockOpen x = true) ∨
  (SoketFails out ∧ (0 < (s.item x).isockfd ∨ s.sockOpen x = false) ∧
    s.soketPending x = false ∧ s.timePending x = false)

theorem safeClose_timePending (s : Bus ι) (x : ι) :
    (s.safeClose x).timePending = s.timePending := by
  unfold safeClose
  split_ifs <;> rfl

theorem safeClose_closed (s : Bus ι) (x : ι) :
    (s.safeClose x).sockOpen x = false ↔ 0 < (s.item x).isockfd ∨ s.sockOpen x = false := by
  unfold safeClose
  by_cases hfd : 0 < (s.item x).isockfd
  · simp [hfd]
  · simp [hfd, setItem]

/-- What `ms_new_connect` leaves of the events, by the first call that
fails. -/
theorem msNewConnect_cases (s : Bus ι) (x : ι) (out : Outcome) :
    (NoneFails out ∧ (msNewConnect s x out).1 = 0 ∧
      (msNewConnect s x out).2.lists = s.lists ∧
      (msNewConnect s x out).2.sockOpen = s.sockOpen ∧
      (msNewConnect s x out).2.soketPending x = true ∧
      (msNewConnect s x out).2.timePending x = true) ∨
    (SoketFails out ∧ (msNewConnect s x out).1 = -1 ∧
      (msNewConnect s x out).2.lists = s.lists ∧
      ((msNewConnect s x out).2.sockOpen x = false ↔
        0 < (s.item x).isockfd ∨ s.sockOpen x = false) ∧
      (msNewConnect s x out).2.soketPending = s.soketPending ∧
      (msNewConnect s x out).2.timePending = s.timePending) ∨
    (¬SoketFails out ∧ ¬NoneFails out ∧
      (msNewConnect s x out).1 = -1 ∧ (msNewConnect s x out).2.lists = s.lists ∧
      (msNewConnect s x out).2.soketPending x = true) := by
  have hclosed : ∀ item : Item, item.isockfd = (s.item x).isockfd →
      (((s.setItem x item).safeClose x).sockOpen x = false ↔
        0 < (s.item x).isockfd ∨ s.sockOpen x = false) := by
    intro item hfd
    rw [safeClose_closed]
    simp [setItem, hfd]
  by_cases h₁ : out.assignSoket < 0
  · right; left
    simp only [msNewConnect, if_pos h₁]
    exact ⟨.inl h₁, trivial, (safeClose_lists _ x).1, hclosed _ rfl, (safeClose_lists _ x).2,
      safeClose_timePending _ x⟩
  by_cases h₂ : out.addSoket < 0
  · right; left
    simp only [msNewConnect, if_neg h₁, if_pos h₂]
    exact ⟨.inr h₂, trivial, (safeClose_lists _ x).1, hclosed _ rfl, (safeClose_lists _ x).2,
      safeClose_timePending _ x⟩
  have hsoket : ¬SoketFails out := not_or.mpr ⟨h₁, h₂⟩
  by_cases h₃ : out.assignTime < 0
  · right; right
    simp only [msNewConnect, if_neg h₁, if_neg h₂, if_pos h₃]
    refine ⟨hsoket, fun h ↦ Int.not_lt.mpr h.2.2.1 h₃, trivial, (safeClose_lists _ x).1, ?_⟩
    simp only [eventDelTime, (safeClose_lists _ x).2]
    exact Function.update_self _ _ _
  by_cases h₄ : out.addTime < 0
  · right; right
    simp only [msNewConnect, if_neg h₁, if_neg h₂, if_neg h₃, if_pos h₄]
    refine ⟨hsoket, fun h ↦ Int.not_lt.mpr h.2.2.2 h₄, trivial, (safeClose_lists _ x).1, ?_⟩
    simp only [eventDelTime, (safeClose_lists _ x).2]
    exact Function.update_self _ _ _
  · left
    simp only [msNewConnect, if_neg h₁, if_neg h₂, if_neg h₃, if_neg h₄]
    exact ⟨⟨Int.not_lt.mp h₁, Int.not_lt.mp h₂, Int.not_lt.mp h₃, Int.not_lt.mp h₄⟩, trivial,
      rfl, rfl, Function.update_self _ _ _, Function.update_self _ _ _⟩

theorem dispatchItem_newConnect {s : Bus ι} {x : ι} (out : Outcome)
    (h : (s.item x).istatus = statusNewConnect) :
    dispatchItem s x out = freeOnError (msNewConnect s x out) x := by
  rw [dispatchItem, if_pos h]

theorem newConnectClean_iff {s : Bus ι} {x : ι} (out : Outcome)
    (hstatus : (s.item x).istatus = statusNewConnect) :
    s.NewConnectClean x out ↔ s.NewConnectSafe x out := by
  rw [NewConnectClean, dispatchItem_newConnect out hstatus]
  rcases msNewConnect_cases s x out with ⟨hnone, hret, hlists, hopen, hsoket, htime⟩ |
    ⟨hfail, hret, hlists, hopen, hsoket, htime⟩ | ⟨hfirst, hsome, hret, hlists, hsoket⟩
  · have hne : ¬(0 : ℤ) = -1 := by decide
    have hne' : ¬(-1 : ℤ) = 0 := by decide
    have hsafe : s.NewConnectSafe x out ↔ s.sockOpen x = true := by
      constructor
      · rintro (⟨-, hopen⟩ | ⟨hfail, -⟩)
        · exact hopen
        · exact absurd hnone hfail.not_noneFails
      · exact fun hopen ↦ .inl ⟨hnone, hopen⟩
    simp only [hsafe, hret, freeOnError, if_neg hne', hopen, hsoket, htime, hne, ne_eq,
      not_false_eq_true, false_implies, true_implies, true_and, and_true]
  · have hsafe : s.NewConnectSafe x out ↔ (0 < (s.item x).isockfd ∨ s.sockOpen x = false) ∧
        s.soketPending x = false ∧ s.timePending x = false := by
      constructor
      · rintro (⟨hnone, -⟩ | ⟨-, hrest⟩)
        · exact absurd hnone hfail.not_noneFails
        · exact hrest
      · exact fun hrest ↦ .inr ⟨hfail, hrest⟩
    rw [hsafe, ← hopen, ← hsoket, ← htime]
    simp only [hret, freeOnError, if_true, itemFree, ne_eq, not_true_eq_false, false_implies,
      and_true, true_implies, hlists, true_and]
  · constructor
    · rintro ⟨hclean, -⟩
      have hpending := (hclean hret).2.2.1
      simp [freeOnError, hret, itemFree, hsoket] at hpending
    · rintro (⟨hnone, -⟩ | ⟨hfail, -⟩)
      · exact absurd hnone hsome
      · exact absurd hfail hfirst

/-! ## Runs -/

/-- No event of an item on the free list is pending. -/
def NoStale (s : Bus ι) : Prop :=
  ∀ free, Chain s.lists.pnext s.lists.gPmsQuenes free → ∀ x ∈ free,
    s.soketPending x = false ∧ s.timePending x = false

/-- The lists are in order, and events are pending only for items on none of
them. -/
def EventInv (s : Bus ι) : Prop :=
  ∃ free quene, Represents s.lists free quene ∧
    ∀ x, s.soketPending x = true ∨ s.timePending x = true → x ∉ free ∧ ∀ k, x ∉ quene k

/-- The handler reports an error only when it took both events back. -/
def ReleaseClean (istatus : ℤ) (out : Outcome) : Prop :=
  (istatus = statusNewConnect → NoneFails out) ∧
  (istatus = statusProcess → out.ret = -1 → out.ilen ≤ 0) ∧
  (istatus = statusReadMore → 0 < out.ilen → out.ret ≠ -1)

def EventSafe (msCommond : ℤ) (_ : Bus ι) : Callback ι → Prop
  | .accept _ _ => True
  | .notify _ _ _ => True
  | .socket _ ievent out | .timer _ ievent out => evRead = ievent → ReleaseClean msCommond out

/-- What a dispatch does to the lists and to the events of its item. -/
inductive Released (s : Bus ι) (x : ι) (t : Bus ι) : Prop
  | kept (hlists : t.lists = s.lists)
  | cleared (hlists : t.lists = msItemFree s.lists x) (hsoket : t.soketPending x = false)
      (htime : t.timePending x = false)

def Stale (s : Bus ι) (x : ι) (t : Bus ι) : Prop :=
  t.lists = msItemFree s.lists x ∧ (t.soketPending x = true ∨ t.timePending x = true)

theorem hangUp_released (s : Bus ι) (x : ι) :
    Released s x ((((s.safeClose x).eventDelSoket x).eventDelTime x).itemFree x) := by
  apply Released.cleared
  · exact congrArg (msItemFree · x) (hangUp_lists s x)
  · simp [itemFree, eventDelTime, eventDelSoket]
  · simp [itemFree, eventDelTime]

theorem dispatchItem_released {s : Bus ι} {x : ι} {out : Outcome}
    (h : ReleaseClean (s.item x).istatus out) : Released s x (dispatchItem s x out) := by
  obtain ⟨hnew, hprocess, hmore⟩ := h
  unfold dispatchItem
  split_ifs with h₁ h₂ h₃ h₄
  · rcases msNewConnect_cases s x out with ⟨-, hret, hlists, -⟩ | ⟨hfail, -⟩ | ⟨-, hsome, -⟩
    · have hne : ¬(-1 : ℤ) = 0 := by decide
      apply Released.kept
      simp only [freeOnError, hret, if_neg hne, hlists]
    · exact absurd (hnew h₁) hfail.not_noneFails
    · exact absurd (hnew h₁) hsome
  · by_cases hlen : out.ilen ≤ 0
    · by_cases hret : -1 = out.ret
      · simp only [msProcess, if_pos hlen, freeOnError, if_pos hret]
        exact hangUp_released s x
      · simp only [msProcess, if_pos hlen, freeOnError, if_neg hret]
        exact .kept (hangUp_lists s x)
    · have hret : ¬-1 = out.ret := fun heq ↦ hlen (hprocess h₂ heq.symm)
      simp only [msProcess, if_neg hlen, freeOnError, if_neg hret]
      exact .kept rfl
  · by_cases hlen : out.ilen ≤ 0
    · simp only [msReadMore, if_pos hlen, freeOnError]
      exact hangUp_released s x
    · have hret : ¬-1 = out.ret := fun heq ↦ hmore h₃ (Int.not_le.mp hlen) heq.symm
      simp only [msReadMore, if_neg hlen, freeOnError, if_neg hret]
      exact .kept rfl
  · obtain ⟨hlists, -, hsoket, htime⟩ := dispatchItem_timeout out h₄
    have heq : dispatchItem s x out = (msTimeoutProcess s x).itemFree x := by
      rw [dispatchItem, if_neg h₁, if_neg h₂, if_neg h₃, if_pos h₄]
    rw [heq] at hlists hsoket htime
    exact .cleared hlists hsoket htime
  · exact .kept rfl

theorem dispatchItem_stale {s : Bus ι} {x : ι} {out : Outcome}
    (hx : s.soketPending x = true ∨ s.timePending x = true)
    (h : ¬ReleaseClean (s.item x).istatus out) : Stale s x (dispatchItem s x out) := by
  have h12 : ¬statusProcess = statusNewConnect := by decide
  have h13 : ¬statusReadMore = statusNewConnect := by decide
  have h23 : ¬statusReadMore = statusProcess := by decide
  simp only [ReleaseClean, not_and_or, not_forall] at h
  rcases h with ⟨hnew, hsome⟩ | ⟨hprocess, hret, hlen⟩ | ⟨hmore, hlen, hret⟩
  · rw [dispatchItem_newConnect out hnew]
    rcases msNewConnect_cases s x out with
      ⟨hnone, -⟩ | ⟨-, hret, hlists, -, hsoket, htime⟩ | ⟨-, -, hret, hlists, hsoket⟩
    · exact absurd hnone hsome
    · simp only [freeOnError, hret, if_true, Stale, itemFree, hlists, hsoket, htime]
      exact ⟨trivial, hx⟩
    · simp only [freeOnError, hret, if_true, Stale, itemFree, hlists, hsoket]
      exact ⟨trivial, .inl trivial⟩
  · rw [dispatchItem, hprocess, if_neg h12, if_pos rfl]
    simp only [msProcess, if_neg hlen, freeOnError, hret, if_true]
    exact ⟨rfl, hx⟩
  · rw [dispatchItem, hmore, if_neg h13, if_neg h23, if_pos rfl]
    have hret' : -1 = out.ret := (not_not.mp hret).symm
    simp only [msReadMore, if_neg (Int.not_le.mpr hlen), freeOnError, if_pos hret']
    exact ⟨rfl, hx⟩

omit [DecidableEq ι] in
theorem EventInv.noStale {s : Bus ι} (hs : s.EventInv) : s.NoStale := by
  obtain ⟨free, quene, hlists, hpending⟩ := hs
  intro free' hchain x hx
  obtain rfl := hlists.chain_free.unique hchain
  constructor
  · cases hsoket : s.soketPending x with
    | false => rfl
    | true => exact absurd hx (hpending x (.inl hsoket)).1
  · cases htime : s.timePending x with
    | false => rfl
    | true => exact absurd hx (hpending x (.inr htime)).1

theorem accepted_eventInv {s : Bus ι} (hs : s.EventInv) {fd : ℤ} {written : Bool} {x : ι}
    {lists : Lists ι ℕ} (halloc : msItemAlloc s.lists = (some x, lists)) :
    (s.accepted fd written x lists).EventInv := by
  obtain ⟨free, quene, hlists, hpending⟩ := hs
  obtain ⟨rest, rfl, hlists'⟩ := hlists.accepted fd written halloc
  have honly : OnlyItem x s (s.accepted fd written x lists) :=
    ⟨fun _ hy ↦ Function.update_of_ne hy _ _, fun _ _ ↦ rfl, fun _ _ ↦ rfl⟩
  refine ⟨rest, _, hlists', honly.pendingOff (fun y hy ↦ ?_)
    (fun y hy ↦ mem_pushed quene _ hy) hpending fun hpend ↦ ?_⟩
  · simp [hy]
  · exact absurd List.mem_cons_self (hpending x hpend).1

theorem Released.eventInv {s t : Bus ι} {x : ι} (h : Released s x t) (honly : OnlyItem x s t)
    (hs : s.EventInv) (hx : s.soketPending x = true ∨ s.timePending x = true) : t.EventInv := by
  obtain ⟨free, quene, hlists, hpending⟩ := hs
  have hno := hpending x hx
  cases h with
  | kept hkept =>
      exact ⟨free, quene, hkept ▸ hlists, honly.pendingOff (fun _ _ ↦ Iff.rfl)
        (fun _ _ _ ↦ Iff.rfl) hpending fun _ ↦ hno⟩
  | cleared hfreed hsoket htime =>
      refine ⟨x :: free, quene, hfreed ▸ hlists.release hno.1 hno.2,
        honly.pendingOff (fun y hy ↦ ?_) (fun _ _ _ ↦ Iff.rfl) hpending fun hpend ↦ ?_⟩
      · simp [hy]
      · rw [hsoket, htime] at hpend
        rcases hpend with hpend | hpend <;> cases hpend

theorem Stale.not_noStale {s t : Bus ι} {x : ι} (h : Stale s x t) (hs : s.EventInv)
    (hx : s.soketPending x = true ∨ s.timePending x = true) : ¬t.NoStale := by
  obtain ⟨free, quene, hlists, hpending⟩ := hs
  obtain ⟨hfreed, hleft⟩ := h
  have hchain := (hlists.release (hpending x hx).1 (hpending x hx).2).chain_free
  rw [← hfreed] at hchain
  intro hnone
  obtain ⟨hsoket, htime⟩ := hnone _ hchain x List.mem_cons_self
  rw [hsoket, htime] at hleft
  rcases hleft with hleft | hleft <;> cases hleft

/-- What `ms_handler` does to the lists and events of an item with a pending
event is decided by what the handler of the status reports. -/
theorem msHandler_events {msCommond : ℤ} {s t : Bus ι} {x : ι} {fd : ℤ} {ievent : ℕ}
    {out : Outcome} (hs : s.EventInv) (hx : s.soketPending x = true ∨ s.timePending x = true)
    (h : msHandler msCommond s fd ievent x out = .ok t) :
    ((evRead = ievent → ReleaseClean msCommond out) → t.EventInv) ∧
    (t.NoStale → evRead = ievent → ReleaseClean msCommond out) := by
  rcases msHandler_ok h with ⟨hev, rfl⟩ | ⟨hev, rfl⟩
  · have hstatus : ((s.setItem x { s.item x with istatus := msCommond }).item x).istatus =
        msCommond := by simp [setItem]
    have hset : (s.setItem x { s.item x with istatus := msCommond }).EventInv := hs
    constructor
    · intro hclean
      rw [← hstatus] at hclean
      exact (dispatchItem_released (hclean hev)).eventInv (onlyItem_dispatchItem _ x out) hset hx
    · intro hnone _
      by_contra hclean
      rw [← hstatus] at hclean
      have hstale := dispatchItem_stale (s := s.setItem x { s.item x with istatus := msCommond })
        hx hclean
      exact hstale.not_noStale hset hx hnone
  · exact ⟨fun _ ↦ hs, fun _ heq ↦ absurd heq hev⟩

theorem step_events {msCommond : ℤ} {s t : Bus ι} {callback : Callback ι} (hs : s.EventInv)
    (h : s.step msCommond callback = .ok t) :
    (EventSafe msCommond s callback → t.EventInv) ∧
    (t.NoStale → EventSafe msCommond s callback) := by
  cases stepCase h with
  | accept fd written x lists hid halloc =>
      exact ⟨fun _ ↦ accepted_eventInv hs halloc, fun _ ↦ trivial⟩
  | notify => exact ⟨fun _ ↦ hs, fun _ ↦ trivial⟩
  | socket x ievent out t hx h => exact msHandler_events hs (.inl hx) h.choose_spec
  | timer x ievent out t hx h => exact msHandler_events hs (.inr hx) h.choose_spec

end Bus

/-- `ms_new_connect` and the release after it leave the events right exactly
when nothing fails, or only a call on the first event does.  A run leaves
no event to a free item exactly when no read callback reports an error of
a handler that did not take both events back. -/
theorem events_iff (msCommond : ℤ) :
    (∀ (s : Bus ι) (x : ι) (out : Outcome), (s.item x).istatus = statusNewConnect →
      (s.NewConnectClean x out ↔ s.NewConnectSafe x out)) ∧
    ∀ s : Bus ι, s.EventInv → ∀ callbacks : List (Callback ι),
      (EachStep (Bus.step msCommond) (Bus.EventSafe msCommond) s callbacks →
        Always (Bus.step msCommond) Bus.NoStale s callbacks) ∧
      ∀ t, run (Bus.step msCommond) s callbacks = .ok t →
        Always (Bus.step msCommond) Bus.NoStale s callbacks →
        EachStep (Bus.step msCommond) (Bus.EventSafe msCommond) s callbacks := by
  refine ⟨fun s x out hstatus ↦ Bus.newConnectClean_iff out hstatus,
    fun s hs callbacks ↦ ⟨fun h ↦ ?_, fun t ht h ↦ ?_⟩⟩
  · apply Always.mono fun _ hu ↦ Bus.EventInv.noStale hu
    exact always_of_eachStep (fun _ _ _ hu hsafe hv ↦ (Bus.step_events hu hv).1 hsafe) hs h
  · apply (always_iff_eachStep (I := Bus.EventInv) (fun _ hu ↦ hu.noStale) ?_ ?_ hs ht).mp h
    · exact fun _ _ _ hu hsafe hv ↦ (Bus.step_events hu hv).1 hsafe
    · exact fun _ _ _ hu hv ↦ (Bus.step_events hu hv).2

/-- An accepted connection that its worker has just taken from the queue. -/
def acceptedBus : Bus (Fin 1) :=
  { connectedBus with
    item := fun _ ↦ ⟨⟨0x1000, 0, 0⟩, Event.zero, ⟨0, 0⟩, 7, statusNewConnect, 0, 0, 0⟩
    soketPending := fun _ ↦ false
    timePending := fun _ ↦ false }

/-- `event_add` fails for the timer, the last of the four calls. -/
theorem not_newConnectClean_timer :
    (acceptedBus.item 0).istatus = statusNewConnect ∧ acceptedBus.sockOpen 0 = true ∧
    acceptedBus.soketPending 0 = false ∧ acceptedBus.timePending 0 = false ∧
    ¬acceptedBus.NewConnectClean 0 { quietOutcome with addTime := -1 } := by
  refine ⟨rfl, rfl, rfl, rfl, fun h ↦ ?_⟩
  have hpending := (h.1 rfl).2.2.1
  exact absurd hpending (by decide)

theorem connectedBus_eventInv : connectedBus.EventInv :=
  ⟨[], fun _ ↦ [], connectedBus_represents, by simp⟩

theorem events_quiet :
    acceptedBus.NewConnectClean 0 quietOutcome ∧
    Always (Bus.step statusProcess) Bus.NoStale connectedBus
      [.socket 0 evRead { quietOutcome with ret := -1 }] := by
  have hsafe : EachStep (Bus.step statusProcess) (Bus.EventSafe statusProcess) connectedBus
      [.socket 0 evRead { quietOutcome with ret := -1 }] :=
    ⟨fun _ ↦ ⟨by decide, by decide, by decide⟩, fun _ _ ↦ trivial⟩
  exact ⟨((events_iff statusProcess).1 acceptedBus 0 quietOutcome rfl).mpr
      (.inl ⟨by decide, rfl⟩),
    ((events_iff statusProcess).2 connectedBus connectedBus_eventInv _).1 hsafe⟩

/-! ## From the event to the handler -/

namespace Bus

/-- After a timeout the item is closed, without events, as `ms_item_init`
leaves it, and on the free list exactly once. -/
structure TimedOut (s : Bus ι) (x : ι) (t : Bus ι) : Prop where
  process : t = (msTimeoutProcess
    (s.setItem x { s.item x with istatus := statusTimeout }) x).itemFree x
  closed : t.sockOpen x = false
  soketPending : t.soketPending x = false
  timePending : t.timePending x = false
  fresh : (t.item x).carried = Carried.fresh ∧ (t.item x).isockfd = -1
  once : ∃ free, Chain t.lists.pnext t.lists.gPmsQuenes free ∧ free.count x = 1

/-- A read event runs `ms_process` on the item, and a timeout
`ms_timeout_process`. -/
def EventHandled (msCommond : ℤ) (s : Bus ι) (x : ι) (fd : ℤ) (ievent : ℕ) (out : Outcome) :
    Prop :=
  (ievent = evRead → msHandler msCommond s fd ievent x out =
    .ok (freeOnError (msProcess
      (s.setItem x { s.item x with istatus := statusProcess }) x out) x)) ∧
  (ievent = evTimeout → ∃ t, msHandler msCommond s fd ievent x out = .ok t ∧ s.TimedOut x t)

theorem dispatchItem_process {s : Bus ι} {x : ι} (out : Outcome)
    (h : (s.item x).istatus = statusProcess) :
    dispatchItem s x out = freeOnError (msProcess s x out) x := by
  have hne : ¬statusProcess = statusNewConnect := by decide
  rw [dispatchItem, h, if_neg hne, if_pos rfl]

/-- Only the timeout branch sets the status. -/
theorem dispatchItem_istatus {s : Bus ι} {x : ι} (out : Outcome)
    (h : (s.item x).istatus ≠ statusTimeout) :
    ((dispatchItem s x out).item x).istatus = (s.item x).istatus := by
  have hclose : ∀ u : Bus ι, ((u.safeClose x).item x).istatus = (u.item x).istatus := by
    intro u
    unfold safeClose
    split_ifs <;> simp [setItem]
  have hfree : ∀ r : ℤ × Bus ι, ((freeOnError r x).item x).istatus = (r.2.item x).istatus := by
    intro r
    unfold freeOnError
    split_ifs <;> rfl
  unfold dispatchItem
  split_ifs with h₁ h₂ h₃
  · rw [hfree, msNewConnect]
    split_ifs <;> simp [hclose, setItem, eventDelTime]
  · rw [hfree, msProcess]
    split_ifs
    · exact hclose s
    · rfl
  · rw [hfree, msReadMore]
    split_ifs
    · exact hclose s
    · rfl
  · rfl

theorem msHandler_read {msCommond : ℤ} {s : Bus ι} {x : ι} {fd : ℤ} {out : Outcome}
    (hfd : 0 < fd) : msHandler msCommond s fd evRead x out =
      .ok (dispatchItem (s.setItem x { s.item x with istatus := msCommond }) x out) := by
  rw [msHandler, if_pos hfd, if_pos rfl]
  rfl

/-- No branch of `ms_handler` is there for a timeout. -/
theorem msHandler_timeout {msCommond : ℤ} {s t : Bus ι} {x : ι} {fd : ℤ} {out : Outcome}
    (h : msHandler msCommond s fd evTimeout x out = .ok t) : t = s := by
  have hread : ¬evRead = evTimeout := by decide
  have htimeout : ¬evTimeout = evRead := by decide
  rw [msHandler, if_neg hread, if_neg htimeout] at h
  split_ifs at h
  exact (Except.ok.inj h).symm

theorem setItem_istatus (s : Bus ι) (x : ι) (istatus : ℤ) :
    ((s.setItem x { s.item x with istatus := istatus }).item x).istatus = istatus := by
  simp [setItem]

/-- Another status than `MS_PROCESS` does something else. -/
theorem dispatchItem_eq_process {msCommond : ℤ} {s : Bus ι} {x : ι} {out : Outcome}
    (h : dispatchItem (s.setItem x { s.item x with istatus := msCommond }) x out =
      freeOnError (msProcess (s.setItem x { s.item x with istatus := statusProcess }) x out) x) :
    msCommond = statusProcess := by
  have hprocess := s.setItem_istatus x statusProcess
  have hcommond := s.setItem_istatus x msCommond
  have hne : ¬statusProcess = statusTimeout := by decide
  have hright := dispatchItem_istatus out (hprocess.trans_ne hne)
  rw [dispatchItem_process out hprocess, ← h, hprocess] at hright
  by_cases htimeout : msCommond = statusTimeout
  · have hleft := (dispatchItem_timeout out (hcommond.trans htimeout)).2.1.istatus
    rw [hright] at hleft
    exact absurd hleft (by decide)
  · have hleft := dispatchItem_istatus out (hcommond.trans_ne htimeout)
    rw [hright, hcommond] at hleft
    exact hleft.symm

end Bus

/-- An event reaches the right handler exactly when it is a read event with
a positive descriptor and `MS_COMMOND` is `MS_PROCESS`, and no timer that
fires changes anything. -/
theorem eventHandled_iff (msCommond : ℤ) :
    (∀ (s : Bus ι) (x : ι), s.sockOpen x = true → ∀ (fd : ℤ) (ievent : ℕ) (out : Outcome),
      ievent = evRead ∨ ievent = evTimeout →
      (s.EventHandled msCommond x fd ievent out ↔
        ievent = evRead ∧ 0 < fd ∧ msCommond = statusProcess)) ∧
    ∀ (s t : Bus ι) (x : ι) (out : Outcome),
      s.step msCommond (.timer x evTimeout out) = .ok t → t = s := by
  refine ⟨fun s x hopen fd ievent out hev ↦ ?_, fun s t x out h ↦ ?_⟩
  · rcases hev with rfl | rfl
    · have hne : ¬evRead = evTimeout := by decide
      simp only [Bus.EventHandled, true_implies, hne, false_implies, and_true, true_and]
      constructor
      · intro h
        by_cases hfd : 0 < fd
        · rw [Bus.msHandler_read hfd] at h
          exact ⟨hfd, Bus.dispatchItem_eq_process (Except.ok.inj h)⟩
        · rw [msHandler, if_neg hfd] at h
          cases h
      · rintro ⟨hfd, rfl⟩
        rw [Bus.msHandler_read hfd,
          Bus.dispatchItem_process out (s.setItem_istatus x statusProcess)]
    · constructor
      · rintro ⟨-, htimeout⟩
        obtain ⟨t, ht, htimed⟩ := htimeout rfl
        obtain rfl := Bus.msHandler_timeout ht
        exact absurd (hopen.symm.trans htimed.closed) (by decide)
      · rintro ⟨hread, -⟩
        exact absurd hread (by decide)
  · simp only [Bus.step] at h
    split_ifs at h
    exact Bus.msHandler_timeout h

/-- The timer of an idle connection fires. -/
theorem not_eventHandled_timeout :
    connectedBus.sockOpen 0 = true ∧ connectedBus.timePending 0 = true ∧
    connectedBus.step statusProcess (.timer 0 evTimeout quietOutcome) = .error .assertion ∧
    ¬connectedBus.EventHandled statusProcess 0 (connectedBus.item 0).timeEvt.evFd evTimeout
      quietOutcome ∧
    ¬connectedBus.EventHandled statusProcess 0 7 evTimeout quietOutcome := by
  refine ⟨rfl, rfl, rfl, fun h ↦ ?_, fun h ↦ ?_⟩
  · obtain ⟨t, ht, -⟩ := h.2 rfl
    cases ht
  · obtain ⟨t, ht, htimed⟩ := h.2 rfl
    obtain rfl := Bus.msHandler_timeout ht
    exact absurd htimed.closed (by decide)

theorem eventHandled_read_one :
    connectedBus.EventHandled statusProcess 0 7 evRead quietOutcome :=
  ((eventHandled_iff statusProcess).1 connectedBus 0 rfl 7 evRead quietOutcome (.inl rfl)).mpr
    ⟨rfl, by decide, rfl⟩

end Cocool.Message
