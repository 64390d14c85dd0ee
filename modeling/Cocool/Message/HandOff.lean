import Cocool.Message.Bus

/-!
# Handing connections to the workers

The acceptor queues an item for a worker and writes a byte into its pipe;
the worker reads the byte, pops the item and dispatches it.  The worker's
callback looks at its thread structure through the pointer that
`message_thread_setup` registered.
-/

namespace Cocool.Message

open Lib

/-- The bus with what was pushed to each worker, and what each worker's
notify callback passed to `message_dispatch` with the status it had. -/
structure HandOff (ι : Type*) where
  bus : Bus ι
  pushed : ℕ → List ι
  dispatched : ℕ → List (Arg ι × Option ℤ)

inductive HandOffCall
  | accept (fd : ℤ)
  | notify (k : ℕ) (ievent : ℕ) (out : Outcome)

namespace HandOff

variable {ι : Type*} [DecidableEq ι]

def statusOf (s : Bus ι) : Arg ι → Option ℤ
  | .item x => some (s.item x).istatus
  | _ => none

def step (s : HandOff ι) : HandOffCall → Except Fault (HandOff ι)
  | .accept fd =>
      (evAcceptCb s.bus fd true).map fun t ↦
        { s with
          bus := t
          pushed := Function.update s.pushed s.bus.ithreadId
            (s.pushed s.bus.ithreadId ++ (msItemAlloc s.bus.lists).1.toList) }
  | .notify k ievent out =>
      (s.bus.notified k ievent out).map fun r ↦
        { s with
          bus := r.1
          dispatched := Function.update s.dispatched k
            (s.dispatched k ++ r.2.toList.map fun arg ↦ (arg, statusOf s.bus arg)) }

structure Started (s : HandOff ι) : Prop where
  lists : ∃ items, Represents s.bus.lists items fun _ ↦ []
  setup : ∃ before, s.bus = setupWorkers before
  notify : ∀ k, s.bus.notify k = []
  pushed : ∀ k, s.pushed k = []
  dispatched : ∀ k, s.dispatched k = []

/-- No pipe holds more bytes than its queue holds items, and what each
worker dispatched is what was pushed to it, in order, as new connections. -/
def HandedOff (s : HandOff ι) : Prop :=
  ∃ free quene, Represents s.bus.lists free quene ∧
    ∀ k, (s.bus.notify k).length ≤ (quene k).length ∧
      ∃ done, s.pushed k = done ++ quene k ∧
        s.dispatched k = done.map fun x ↦ (.item x, some statusNewConnect)

/-- The hand-off works all along a run and no callback follows a pointer to
a variable that is gone. -/
def HandOffSafe (s : HandOff ι) (calls : List HandOffCall) : Prop :=
  Always step HandedOff s calls ∧ run step s calls ≠ .error .dangling

/-- No worker is woken up to read a byte. -/
def NotifyQuiet (s : HandOff ι) : HandOffCall → Prop
  | .accept _ => True
  | .notify k ievent _ =>
      k < msProcessNum → s.bus.notify k ≠ [] → evRead &&& ievent ≠ evRead

structure HandOffInv (s : HandOff ι) : Prop where
  handedOff : HandedOff s
  setup : ∀ k < msProcessNum, s.bus.notifyArg k = .frame

theorem HandedOff.accept {s : HandOff ι} (h : HandedOff s) {fd : ℤ} {x : ι} {lists : Lists ι ℕ}
    (halloc : msItemAlloc s.bus.lists = (some x, lists)) :
    HandedOff { s with
      bus := s.bus.accepted fd true x lists
      pushed := Function.update s.pushed s.bus.ithreadId (s.pushed s.bus.ithreadId ++ [x]) } := by
  obtain ⟨free, quene, hlists, hworkers⟩ := h
  obtain ⟨rest, rfl, hlists'⟩ := hlists.accepted fd true halloc
  refine ⟨rest, _, hlists', fun k ↦ ?_⟩
  obtain ⟨hbytes, done, hpushed, hdone⟩ := hworkers k
  by_cases hk : k = s.bus.ithreadId
  · subst hk
    refine ⟨by simpa [Bus.accepted] using hbytes, done, ?_, hdone⟩
    simp [hpushed]
  · refine ⟨by simpa [Bus.accepted, hk] using hbytes, done, ?_, hdone⟩
    simpa [hk] using hpushed

theorem step_handOffInv {s t : HandOff ι} {call : HandOffCall} (hs : HandOffInv s)
    (hquiet : NotifyQuiet s call) (h : step s call = .ok t) : HandOffInv t := by
  cases call with
  | accept fd =>
      obtain ⟨u, hu, rfl⟩ := map_eq_ok_iff.mp h
      obtain ⟨-, x, lists, halloc, rfl⟩ := evAcceptCb_ok hu
      refine ⟨?_, hs.setup⟩
      rw [halloc]
      exact hs.handedOff.accept halloc
  | notify k ievent out =>
      obtain ⟨r, hr, rfl⟩ := map_eq_ok_iff.mp h
      simp only [Bus.notified] at hr
      split_ifs at hr with hk
      rw [hs.setup k hk.1, messageNotify_frame, if_neg (hquiet hk.1 hk.2)] at hr
      obtain rfl := Except.ok.inj hr
      have hsame : Function.update s.dispatched k (s.dispatched k ++ []) = s.dispatched := by
        rw [List.append_nil, Function.update_eq_self]
      refine ⟨?_, hs.setup⟩
      simpa [hsame] using hs.handedOff

theorem step_ne_dangling {s : HandOff ι} {call : HandOffCall} (hs : HandOffInv s)
    (hquiet : NotifyQuiet s call) : step s call ≠ .error .dangling := by
  cases call with
  | accept fd =>
      simp only [step, evAcceptCb]
      split
      · simp [Except.map]
      · split_ifs <;> simp [Except.map]
  | notify k ievent out =>
      simp only [step, Bus.notified]
      split_ifs with hk
      · rw [hs.setup k hk.1, messageNotify_frame, if_neg (hquiet hk.1 hk.2)]
        simp [Except.map]
      · simp [Except.map]

theorem notifyQuiet_of_ne_dangling {s : HandOff ι} {call : HandOffCall} (hs : HandOffInv s)
    (h : ∀ e, step s call = .error e → e ≠ .dangling) : NotifyQuiet s call := by
  cases call with
  | accept fd => trivial
  | notify k ievent out =>
      intro hk hbyte hread
      refine h .dangling ?_ rfl
      simp only [step, Bus.notified, if_pos (And.intro hk hbyte), hs.setup k hk,
        messageNotify_frame, if_pos hread]
      rfl

omit [DecidableEq ι] in
theorem Started.handOffInv {s : HandOff ι} (hs : Started s) : HandOffInv s := by
  obtain ⟨items, hitems⟩ := hs.lists
  refine ⟨⟨items, _, hitems, fun k ↦ ⟨by simp [hs.notify], [], ?_, ?_⟩⟩, fun k hk ↦ ?_⟩
  · simpa using hs.pushed k
  · simpa using hs.dispatched k
  · obtain ⟨before, hbefore⟩ := hs.setup
    rw [hbefore]
    exact setupWorkers_notifyArg before hk

end HandOff

/-- Connections are handed off properly in a run exactly when no worker is
ever woken up: its callback goes through a pointer that does not lead to its
thread. -/
theorem handOffSafe_iff_notifyQuiet {ι : Type*} [DecidableEq ι] {s : HandOff ι}
    (hs : s.Started) (calls : List HandOffCall) :
    s.HandOffSafe calls ↔ EachStep HandOff.step HandOff.NotifyQuiet s calls := by
  constructor
  · rintro ⟨halways, hrun⟩
    exact eachStep_of_always (E := fun e ↦ e = .dangling) (fun _ _ _ ↦ HandOff.step_handOffInv)
      (fun _ _ hinv _ ↦ HandOff.notifyQuiet_of_ne_dangling hinv) hs.handOffInv halways
      fun e he ↦ he ▸ hrun
  · intro h
    refine ⟨(always_of_eachStep (fun _ _ _ ↦ HandOff.step_handOffInv) hs.handOffInv h).mono
      fun _ ht ↦ ht.handedOff, ?_⟩
    exact run_ne_error (fun _ _ _ ↦ HandOff.step_handOffInv)
      (fun _ _ ↦ HandOff.step_ne_dangling) hs.handOffInv h

theorem HandOff.started_oneItemBus :
    (⟨oneItemBus, fun _ ↦ [], fun _ ↦ []⟩ : HandOff (Fin 1)).Started :=
  ⟨⟨[0], oneItemBus_represents⟩, ⟨_, rfl⟩, fun _ ↦ rfl, fun _ ↦ rfl, fun _ ↦ rfl⟩

/-- One client connects and its worker is woken up. -/
theorem handOff_one_client :
    (⟨oneItemBus, fun _ ↦ [], fun _ ↦ []⟩ : HandOff (Fin 1)).Started ∧
    ¬(⟨oneItemBus, fun _ ↦ [], fun _ ↦ []⟩ : HandOff (Fin 1)).HandOffSafe
      [.accept 7, .notify 0 evRead quietOutcome] :=
  ⟨HandOff.started_oneItemBus, fun h ↦ h.2 rfl⟩

theorem handOffSafe_one_accept :
    (⟨oneItemBus, fun _ ↦ [], fun _ ↦ []⟩ : HandOff (Fin 1)).HandOffSafe [.accept 7] :=
  (handOffSafe_iff_notifyQuiet HandOff.started_oneItemBus [.accept 7]).mpr
    ⟨trivial, fun _ _ ↦ trivial⟩

end Cocool.Message
