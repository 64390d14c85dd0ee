import Cocool.Message.Bus

/-!
# Accepting connections

`ev_accept_cb` gives each connection to the worker that a static counter
names.  The counter only goes up, the array of workers has
`MS_PROCESS_NUM` entries, and neither the descriptor nor the item is
looked at before it is used.
-/

namespace Cocool.Message

open Lib

/-- The bus with the number of connections given to each worker so far. -/
structure AcceptRun (ι : Type*) where
  bus : Bus ι
  given : ℕ → ℕ

namespace AcceptRun

variable {ι : Type*} [DecidableEq ι]

def step (msCommond : ℤ) (s : AcceptRun ι) (callback : Callback ι) :
    Except Fault (AcceptRun ι) :=
  (s.bus.step msCommond callback).map fun t ↦
    match callback with
    | .accept _ _ => ⟨t, Function.update s.given s.bus.ithreadId (s.given s.bus.ithreadId + 1)⟩
    | _ => ⟨t, s.given⟩

structure Started (s : AcceptRun ι) : Prop where
  ithreadId : s.bus.ithreadId = 0
  given : ∀ k, s.given k = 0

/-- No worker of the array has two connections more than another. -/
def Fair (s : AcceptRun ι) : Prop :=
  ∀ j < msProcessNum, ∀ k < msProcessNum, s.given j ≤ s.given k + 1

/-- An accepted item is pushed to one worker of the array, the byte goes
into the pipe of that worker, and the connection counts as that worker's. -/
def SameWorker (msCommond : ℤ) (s : AcceptRun ι) : Callback ι → Prop
  | .accept fd written => ∀ t, s.step msCommond (.accept fd written) = .ok t →
      ∃ k < msProcessNum, ∃ x lists, msItemAlloc s.bus.lists = (some x, lists) ∧
        t.bus.lists = msQuenePush lists k x ∧
        t.bus.notify =
          (if written then Function.update s.bus.notify k (s.bus.notify k ++ ['w'])
            else s.bus.notify) ∧
        t.given = Function.update s.given k (s.given k + 1)
  | _ => True

/-- Workers are chosen fairly all along a run, the push and the byte agree,
and no index leaves the array of workers. -/
def WorkersSafe (msCommond : ℤ) (s : AcceptRun ι) (callbacks : List (Callback ι)) : Prop :=
  Always (step msCommond) Fair s callbacks ∧
    EachStep (step msCommond) (SameWorker msCommond) s callbacks ∧
    run (step msCommond) s callbacks ≠ .error .index

/-- A connection that gets an item also finds the counter below
`MS_PROCESS_NUM`: by `run_ithreadId` fewer connections were accepted before it. -/
def CounterInRange (s : AcceptRun ι) : Callback ι → Prop
  | .accept _ _ => (msItemAlloc s.bus.lists).1 ≠ none → s.bus.ithreadId < msProcessNum
  | _ => True

instance (s : AcceptRun ι) : DecidablePred (CounterInRange s)
  | .accept _ _ => inferInstanceAs (Decidable (_ → _ < _))
  | .notify _ _ _ => isTrue trivial
  | .socket _ _ _ => isTrue trivial
  | .timer _ _ _ => isTrue trivial

/-! ## The counter -/

theorem dispatchItem_ithreadId (s : Bus ι) (x : ι) (out : Outcome) :
    (dispatchItem s x out).ithreadId = s.ithreadId := by
  have hclosed : DispatchClosed x fun t : Bus ι ↦ t.ithreadId = s.ithreadId :=
    ⟨fun _ _ h _ _ ↦ h, fun _ h ↦ h, fun _ _ h ↦ h, fun _ _ h ↦ h, fun _ _ _ h ↦ h, fun _ h ↦ h⟩
  exact hclosed.dispatchItem rfl out

theorem msHandler_ithreadId {msCommond fd : ℤ} {s t : Bus ι} {ievent : ℕ} {x : ι}
    {out : Outcome} (h : msHandler msCommond s fd ievent x out = .ok t) :
    t.ithreadId = s.ithreadId := by
  rcases msHandler_ok h with ⟨-, rfl⟩ | ⟨-, rfl⟩
  · exact dispatchItem_ithreadId _ x out
  · rfl

/-- Only an accept moves the counter, by one. -/
theorem step_ithreadId {msCommond : ℤ} {s t : Bus ι} {callback : Callback ι}
    (h : s.step msCommond callback = .ok t) :
    t.ithreadId = match callback with
      | .accept _ _ => s.ithreadId + 1
      | _ => s.ithreadId := by
  cases Bus.stepCase h with
  | accept => rfl
  | notify => rfl
  | socket x ievent out t hx h => exact msHandler_ithreadId h.choose_spec
  | timer x ievent out t hx h => exact msHandler_ithreadId h.choose_spec

/-- Only an accept uses the counter as an index. -/
theorem step_index {msCommond : ℤ} {s : Bus ι} {callback : Callback ι}
    (h : s.step msCommond callback = .error .index) :
    ∃ fd written, callback = .accept fd written ∧ (msItemAlloc s.lists).1 ≠ none ∧
      ¬s.ithreadId < msProcessNum := by
  have hhandler : ∀ fd ievent x out, msHandler msCommond s fd ievent x out ≠ .error .index := by
    intro fd ievent x out
    unfold msHandler messageDispatch
    split_ifs <;> simp
  cases callback with
  | accept fd written =>
      refine ⟨fd, written, rfl, ?_⟩
      simp only [Bus.step, evAcceptCb] at h
      split at h
      · cases h
      · rename_i x lists halloc
        rw [halloc]
        by_cases hid : s.ithreadId < msProcessNum
        · rw [if_pos (by exact hid)] at h
          cases h
        · exact ⟨by simp, hid⟩
  | notify k ievent out =>
      exfalso
      simp only [Bus.step, Bus.notified, messageNotify] at h
      split_ifs at h
      · split at h
        · simp [Except.map] at h
        · split at h <;> simp [Except.map, quenePop] at h
        · simp [Except.map] at h
      · simp [Except.map] at h
      · simp [Except.map] at h
  | socket x ievent out =>
      exfalso
      simp only [Bus.step] at h
      split_ifs at h
      · exact hhandler _ _ _ _ h
      · cases h
  | timer x ievent out =>
      exfalso
      simp only [Bus.step] at h
      split_ifs at h
      · exact hhandler _ _ _ _ h
      · cases h

omit [DecidableEq ι] in
def isAccept : Callback ι → Bool
  | .accept _ _ => true
  | _ => false

/-- The counter is the number of the accepts that got an item: one that finds
none does not return. -/
theorem run_ithreadId {msCommond : ℤ} {s t : AcceptRun ι} {callbacks : List (Callback ι)}
    (h : run (step msCommond) s callbacks = .ok t) :
    t.bus.ithreadId = s.bus.ithreadId + callbacks.countP isAccept := by
  induction callbacks generalizing s with
  | nil =>
      obtain rfl := Except.ok.inj h
      rfl
  | cons callback callbacks ih =>
      obtain ⟨u, hu, hrest⟩ := run_cons_eq_ok h
      obtain ⟨v, hv, rfl⟩ := map_eq_ok_iff.mp hu
      rw [ih hrest]
      have hid := step_ithreadId hv
      cases callback with
      | accept fd written =>
          rw [List.countP_cons_of_pos rfl, hid, Nat.add_assoc, Nat.add_comm 1]
      | notify k ievent out => rw [List.countP_cons_of_neg Bool.false_ne_true, hid]
      | socket x ievent out => rw [List.countP_cons_of_neg Bool.false_ne_true, hid]
      | timer x ievent out => rw [List.countP_cons_of_neg Bool.false_ne_true, hid]

/-! ## Runs -/

/-- The workers below the counter have one connection each, the others
none. -/
def OneEach (s : AcceptRun ι) : Prop :=
  ∀ k, s.given k = if k < s.bus.ithreadId then 1 else 0

theorem step_oneEach {msCommond : ℤ} {s t : AcceptRun ι} {callback : Callback ι}
    (hs : OneEach s) (h : s.step msCommond callback = .ok t) : OneEach t := by
  obtain ⟨u, hu, rfl⟩ := map_eq_ok_iff.mp h
  have hid := step_ithreadId hu
  cases callback with
  | accept fd written =>
      intro k
      have hk := hs k
      simp only at hid ⊢
      by_cases hkid : k = s.bus.ithreadId
      · subst hkid
        simp [hs s.bus.ithreadId, hid]
      · rw [Function.update_of_ne hkid, hk, hid]
        by_cases hlt : k < s.bus.ithreadId
        · rw [if_pos hlt, if_pos (by omega)]
        · rw [if_neg hlt, if_neg (by omega)]
  | notify k ievent out => exact fun j ↦ by rw [hid]; exact hs j
  | socket x ievent out => exact fun j ↦ by rw [hid]; exact hs j
  | timer x ievent out => exact fun j ↦ by rw [hid]; exact hs j

omit [DecidableEq ι] in
theorem OneEach.fair {s : AcceptRun ι} (hs : OneEach s) : Fair s := by
  intro j _ k _
  rw [hs j, hs k]
  split_ifs <;> omega

theorem sameWorker (msCommond : ℤ) (s : AcceptRun ι) (callback : Callback ι) :
    SameWorker msCommond s callback := by
  cases callback with
  | accept fd written =>
      intro t ht
      obtain ⟨u, hu, rfl⟩ := map_eq_ok_iff.mp ht
      obtain ⟨hid, x, lists, halloc, rfl⟩ := evAcceptCb_ok hu
      exact ⟨s.bus.ithreadId, hid, x, lists, halloc, rfl, rfl, rfl⟩
  | _ => trivial

theorem step_index_of_full {msCommond : ℤ} {s : AcceptRun ι} {callback : Callback ι}
    (h : ¬CounterInRange s callback) : s.step msCommond callback = .error .index := by
  cases callback with
  | accept fd written =>
      simp only [CounterInRange, not_forall] at h
      obtain ⟨hitem, hid⟩ := h
      have hbus : evAcceptCb s.bus fd written = .error .index := by
        unfold evAcceptCb
        split
        · rename_i hnone
          simp [hnone] at hitem
        · exact if_neg hid
      simp [step, Bus.step, hbus, Except.map]
  | _ => exact absurd trivial h

end AcceptRun

/-- Workers are chosen safely in a run exactly when each connection that
gets an item finds fewer than `MS_PROCESS_NUM` accepted before it. -/
theorem workersSafe_iff_counterInRange {ι : Type*} [DecidableEq ι] (msCommond : ℤ)
    {s : AcceptRun ι} (hs : s.Started) (callbacks : List (Callback ι)) :
    s.WorkersSafe msCommond callbacks ↔
      EachStep (AcceptRun.step msCommond) AcceptRun.CounterInRange s callbacks := by
  have h0 : AcceptRun.OneEach s := by
    intro k
    simp [hs.given, hs.ithreadId]
  have halways : Always (AcceptRun.step msCommond) AcceptRun.OneEach s callbacks :=
    always_of_step (fun _ _ _ h ht ↦ AcceptRun.step_oneEach h ht) h0 callbacks
  constructor
  · rintro ⟨-, -, hrun⟩
    refine eachStep_of_always (I := fun _ ↦ True) (E := fun e ↦ e = .index)
      (fun _ _ _ _ _ _ ↦ trivial) (fun u callback _ _ herr ↦ ?_) trivial halways
      fun e he ↦ he ▸ hrun
    by_contra hfull
    exact herr .index (AcceptRun.step_index_of_full hfull) rfl
  · intro h
    refine ⟨halways.mono fun _ hu ↦ hu.fair, halways.eachStep fun u callback _ ↦
      AcceptRun.sameWorker msCommond u callback, ?_⟩
    refine run_ne_error (P := fun _ ↦ True) (fun _ _ _ _ _ _ ↦ trivial) ?_ trivial h
    intro u callback _ hin herr
    cases hu : u.bus.step msCommond callback with
    | ok t => simp [AcceptRun.step, hu, Except.map] at herr
    | error e =>
        obtain rfl : e = .index := by simpa [AcceptRun.step, hu, Except.map] using herr
        obtain ⟨fd, written, rfl, hitem, hid⟩ := AcceptRun.step_index hu
        exact hid (hin hitem)

/-- Five free items and idle workers. -/
def fiveItemBus : Bus (Fin 5) :=
  setupWorkers
    { lists := ⟨fun x ↦ if x = 4 then none else some (x + 1), some 0, fun _ ↦ none, fun _ ↦ none⟩
      item := fun _ ↦ ⟨Event.zero, Event.zero, ⟨0, 0⟩, 0, 0, 0, 0, 0⟩
      mem := fun _ ↦ 0
      ithreadId := 0
      notify := fun _ ↦ []
      notifyArg := fun _ ↦ .frame
      soketPending := fun _ ↦ false
      timePending := fun _ ↦ false
      sockOpen := fun _ ↦ false
      currentBase := 0x1000 }

/-- The fifth client since start. -/
theorem workers_fifth_client :
    (⟨fiveItemBus, fun _ ↦ 0⟩ : AcceptRun (Fin 5)).Started ∧
    ¬(⟨fiveItemBus, fun _ ↦ 0⟩ : AcceptRun (Fin 5)).WorkersSafe statusProcess
      [.accept 7 true, .accept 8 true, .accept 9 true, .accept 10 true, .accept 11 true] :=
  ⟨⟨rfl, fun _ ↦ rfl⟩, fun h ↦ h.2.2 rfl⟩

theorem workersSafe_two_clients :
    (⟨fiveItemBus, fun _ ↦ 0⟩ : AcceptRun (Fin 5)).WorkersSafe statusProcess
      [.accept 7 true, .accept 8 true] :=
  (workersSafe_iff_counterInRange statusProcess ⟨rfl, fun _ ↦ rfl⟩ _).mpr
    ⟨by decide, fun _ ht ↦ by cases ht; exact ⟨by decide, fun _ _ ↦ trivial⟩⟩

/-! ## All or nothing -/

section AllOrNothing

variable {ι : Type*} [DecidableEq ι]

/-- One item with the descriptor moved from the free list to the end of one
worker's queue, and one byte to that worker's pipe. -/
def HandedOver (s t : Bus ι) (fd : ℤ) (free : List ι) (quene : ℕ → List ι) : Prop :=
  0 ≤ fd ∧ ∃ x rest, ∃ k < msProcessNum, free = x :: rest ∧ (t.item x).isockfd = fd ∧
    Represents t.lists rest (Function.update quene k (quene k ++ [x])) ∧
    t.notify = Function.update s.notify k (s.notify k ++ ['w'])

/-- Nothing happened.  `ev_accept_cb` closes no descriptor, so there must
not have been one. -/
def Untouched (s t : Bus ι) (fd : ℤ) (free : List ι) (quene : ℕ → List ι) : Prop :=
  fd < 0 ∧ Represents t.lists free quene ∧ t.notify = s.notify ∧ t.ithreadId = s.ithreadId

/-- The call dereferences no NULL item, stays inside the array of workers,
and does all or nothing. -/
def AllOrNothing (s : Bus ι) (fd : ℤ) (written : Bool) (free : List ι) (quene : ℕ → List ι) :
    Prop :=
  ∃ t, evAcceptCb s fd written = .ok t ∧
    (HandedOver s t fd free quene ∨ Untouched s t fd free quene)

/-- An accept is all or nothing exactly when the descriptor is good, an item
is free, the counter is in range and the byte fits into the pipe. -/
theorem allOrNothing_iff {s : Bus ι} {free : List ι} {quene : ℕ → List ι}
    (hs : Represents s.lists free quene) (fd : ℤ) (written : Bool) :
    AllOrNothing s fd written free quene ↔
      0 ≤ fd ∧ free ≠ [] ∧ s.ithreadId < msProcessNum ∧ written = true := by
  constructor
  · rintro ⟨t, ht, hres⟩
    obtain ⟨hid, x, lists, halloc, rfl⟩ := evAcceptCb_ok ht
    obtain ⟨rest, rfl, hafter⟩ := hs.accepted fd written halloc
    rcases hres with ⟨hfd, y, rest', k, hk, -, -, -, hbyte⟩ | ⟨-, hsame, -, hcount⟩
    · refine ⟨hfd, by simp, hid, ?_⟩
      cases written with
      | true => rfl
      | false =>
          have hk := congrFun hbyte k
          simp [Bus.accepted] at hk
    · simp [Bus.accepted] at hcount
  · rintro ⟨hfd, hfree, hid, rfl⟩
    obtain ⟨hhead, -⟩ := hs.alloc
    obtain ⟨x, rest, rfl⟩ := List.exists_cons_of_ne_nil hfree
    obtain ⟨lists, halloc⟩ : ∃ lists, msItemAlloc s.lists = (some x, lists) :=
      ⟨(msItemAlloc s.lists).2, Prod.ext hhead rfl⟩
    obtain ⟨rest', heq, hafter⟩ := hs.accepted fd true halloc
    obtain ⟨-, rfl⟩ := List.cons.inj heq
    refine ⟨_, evAcceptCb_of_alloc hid halloc, .inl ⟨hfd, x, rest, s.ithreadId, hid, rfl, ?_,
      hafter, ?_⟩⟩
    · simp [Bus.accepted]
    · simp [Bus.accepted]

/-- `accept` fails while an item is free. -/
theorem not_allOrNothing_failed_accept :
    Represents oneItemBus.lists [0] (fun _ ↦ []) ∧
    ¬AllOrNothing oneItemBus (-1) true [0] (fun _ ↦ []) := by
  refine ⟨oneItemBus_represents, ?_⟩
  rintro ⟨t, ht, ⟨hfd, -⟩ | ⟨-, -, -, hcount⟩⟩
  · exact absurd hfd (by decide)
  · obtain ⟨-, x, lists, -, rfl⟩ := evAcceptCb_ok ht
    simp [Bus.accepted] at hcount

theorem allOrNothing_one_client : AllOrNothing oneItemBus 7 true [0] (fun _ ↦ []) :=
  (allOrNothing_iff oneItemBus_represents 7 true).mpr
    ⟨by decide, by decide, by decide, rfl⟩

end AllOrNothing

end Cocool.Message
