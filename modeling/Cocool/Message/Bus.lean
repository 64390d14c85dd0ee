import Cocool.Lib.Runs
import Cocool.Message.Items
import Mathlib.Data.Int.Notation

/-!
# The message bus

The acceptor, the workers and the callbacks of `co_message.c` over one set
of items.  What the system and libevent answer is given with each callback,
and so is the value of a call whose function returns none.
-/

namespace Cocool.Message

open Lib

abbrev Addr := ℕ

/-! ## Constants -/

def msProcessNum : ℕ := 4

def msTimeoutTime : ℤ := 5

def evRead : ℕ := 2

def evPersist : ℕ := 16

/-- `EV_TIMEOUT`, which `co_message.c` defines anew. -/
def evTimeout : ℕ := 60

/-- `MS_NEW_CONNECT`, `MS_PROCESS`, `MS_READ_MORE` and `MS_TIMEOUT` -/
def statusNewConnect : ℤ := 1

def statusProcess : ℤ := 2

def statusReadMore : ℤ := 3

def statusTimeout : ℤ := 4

/-! ## State -/

/-- The part of libevent's `struct event` that `event_assign` fills in from
its arguments.  The callback is always `ms_handler` on the item itself. -/
structure Event where
  evBase : Addr
  evFd : ℤ
  evEvents : ℕ
  deriving DecidableEq

def Event.zero : Event := ⟨0, 0, 0⟩

structure Timeval where
  tvSec : ℤ
  tvUsec : ℤ
  deriving DecidableEq

/-- `MS_QUENS_ITEM` without its link, which is in the lists. -/
structure Item where
  soketEvt : Event
  timeEvt : Event
  timeval : Timeval
  isockfd : ℤ
  istatus : ℤ
  pdatabuf : ℤ
  ibufflen : ℤ
  iwriteIdx : ℤ
  deriving DecidableEq

/-- What a pointer passed to a callback or a queue function points to; a
`frame` is the variable of a call that has returned. -/
inductive Arg (ι : Type*)
  | item (x : ι)
  | thread (k : ℕ)
  | quene (k : ℕ)
  | frame
  deriving DecidableEq

/-- Why a callback has no defined outcome: a NULL item, a worker index
outside of `g_pms_thread`, a pointer to a variable that is gone or to
another type, or a failed assertion; and a callback that libevent would not
make. -/
inductive Fault
  | null
  | index
  | dangling
  | type
  | assertion
  | unregistered
  deriving DecidableEq

/-- The lists, items and workers of the bus, the bytes waiting in each
worker's pipe, and what libevent and the kernel keep for it: the pending
events, and the items whose accepted socket was not closed. -/
structure Bus (ι : Type*) where
  lists : Lists ι ℕ
  item : ι → Item
  mem : ℤ → UInt8
  ithreadId : ℕ
  notify : ℕ → List Char
  notifyArg : ℕ → Arg ι
  soketPending : ι → Bool
  timePending : ι → Bool
  sockOpen : ι → Bool
  currentBase : Addr

/-- What the calls made during one callback return: those of libevent, the
count and bytes of `read`, and the value of a call to a function that ends
without one. -/
structure Outcome where
  assignSoket : ℤ
  addSoket : ℤ
  assignTime : ℤ
  addTime : ℤ
  ilen : ℤ
  bytes : ℕ → UInt8
  ret : ℤ

section

variable {ι : Type*} [DecidableEq ι]

namespace Bus

def setItem (s : Bus ι) (x : ι) (item : Item) : Bus ι :=
  { s with item := Function.update s.item x item }

def safeClose (s : Bus ι) (x : ι) : Bus ι :=
  if 0 < (s.item x).isockfd then
    { s.setItem x { s.item x with isockfd := -1 } with
      sockOpen := Function.update s.sockOpen x false }
  else s.setItem x { s.item x with isockfd := -1 }

def eventDelSoket (s : Bus ι) (x : ι) : Bus ι :=
  { s with soketPending := Function.update s.soketPending x false }

def eventDelTime (s : Bus ι) (x : ι) : Bus ι :=
  { s with timePending := Function.update s.timePending x false }

/-- The event that `event_assign` leaves, whatever it returns. -/
def eventAssign (s : Bus ι) (base : Addr) (fd : ℤ) (events : ℕ) : Event :=
  ⟨if base = 0 then s.currentBase else base, fd, events⟩

def readInto (s : Bus ι) (p : ℤ) (out : Outcome) : Bus ι :=
  { s with mem := fun a ↦
      if p ≤ a ∧ a < p + out.ilen then out.bytes (a - p).toNat else s.mem a }

end Bus

/-! ## The handlers -/

def msItemInit (s : Bus ι) (x : ι) : Bus ι :=
  s.setItem x { s.item x with
    timeEvt := Event.zero
    soketEvt := Event.zero
    istatus := 0
    iwriteIdx := 0
    isockfd := -1
    timeval := ⟨msTimeoutTime, 0⟩ }

def msTimeoutProcess (s : Bus ι) (x : ι) : Bus ι :=
  msItemInit (((s.safeClose x).eventDelSoket x).eventDelTime x) x

def msNewConnect (s : Bus ι) (x : ι) (out : Outcome) : ℤ × Bus ι :=
  let pbase := (s.item x).soketEvt.evBase
  let s := s.setItem x { s.item x with
    soketEvt := s.eventAssign pbase (s.item x).isockfd (evRead + evPersist) }
  if out.assignSoket < 0 then (-1, s.safeClose x)
  else if out.addSoket < 0 then (-1, s.safeClose x)
  else
    let s := { s with soketPending := Function.update s.soketPending x true }
    -- the descriptor argument is NULL
    let s := s.setItem x { s.item x with timeEvt := s.eventAssign pbase 0 evTimeout }
    if out.assignTime < 0 then (-1, (s.safeClose x).eventDelTime x)
    else
      let s := s.setItem x { s.item x with timeval := ⟨msTimeoutTime, 0⟩ }
      if out.addTime < 0 then (-1, (s.safeClose x).eventDelTime x)
      else (0, { s with timePending := Function.update s.timePending x true })

/-- Both ends of `ms_process` are without a value. -/
def msProcess (s : Bus ι) (x : ι) (out : Outcome) : ℤ × Bus ι :=
  if out.ilen ≤ 0 then (out.ret, ((s.safeClose x).eventDelSoket x).eventDelTime x)
  else (out.ret, s.readInto ((s.item x).pdatabuf + (s.item x).iwriteIdx) out)

/-- `ms_read_more`, whose header is a local; the path after a successful
read is without a value. -/
def msReadMore (s : Bus ι) (x : ι) (out : Outcome) : ℤ × Bus ι :=
  if out.ilen ≤ 0 then (-1, ((s.safeClose x).eventDelSoket x).eventDelTime x)
  else (out.ret, s)

def Bus.itemFree (s : Bus ι) (x : ι) : Bus ι := { s with lists := msItemFree s.lists x }

def Bus.freeOnError (r : ℤ × Bus ι) (x : ι) : Bus ι :=
  if -1 = r.1 then r.2.itemFree x else r.2

def dispatchItem (s : Bus ι) (x : ι) (out : Outcome) : Bus ι :=
  if (s.item x).istatus = statusNewConnect then Bus.freeOnError (msNewConnect s x out) x
  else if (s.item x).istatus = statusProcess then Bus.freeOnError (msProcess s x out) x
  else if (s.item x).istatus = statusReadMore then Bus.freeOnError (msReadMore s x out) x
  else if (s.item x).istatus = statusTimeout then (msTimeoutProcess s x).itemFree x
  else s

def messageDispatch (s : Bus ι) (arg : Arg ι) (out : Outcome) : Except Fault (Bus ι) :=
  match arg with
  | .item x => .ok (dispatchItem s x out)
  | _ => .error .type

/-! ## The callbacks -/

/-- `ms_handler`, where `msCommond` is the value of the macro `MS_COMMOND`,
which no file defines. -/
def msHandler (msCommond : ℤ) (s : Bus ι) (isockfd : ℤ) (ievent : ℕ) (x : ι) (out : Outcome) :
    Except Fault (Bus ι) :=
  if 0 < isockfd then
    if evRead = ievent then
      messageDispatch (s.setItem x { s.item x with istatus := msCommond }) (.item x) out
    -- the source compares its two constants here, not `ievent`
    else if evTimeout = evRead then
      messageDispatch (s.setItem x { s.item x with istatus := statusTimeout }) (.item x) out
    else .ok s
  else .error .assertion

/-- `ev_accept_cb`; `written` tells whether the notify byte got into the
pipe. -/
def evAcceptCb (s : Bus ι) (iacceptfd : ℤ) (written : Bool) : Except Fault (Bus ι) :=
  match msItemAlloc s.lists with
  | (none, _) => .error .null
  | (some x, lists) =>
      -- nothing asks whether `accept` failed
      let s := { s with
        lists := lists
        sockOpen := Function.update s.sockOpen x (0 ≤ iacceptfd) }
      let s := s.setItem x { s.item x with
        isockfd := iacceptfd
        soketEvt := Event.zero
        timeEvt := Event.zero }
      if s.ithreadId < msProcessNum then
        .ok { s with
          lists := msQuenePush s.lists s.ithreadId x
          notify := if written then
              Function.update s.notify s.ithreadId (s.notify s.ithreadId ++ ['w'])
            else s.notify
          ithreadId := s.ithreadId + 1 }
      else .error .index

/-- `message_thread_setup` hands `message_notify` the address of its own
parameter. -/
def messageThreadSetup (s : Bus ι) (k : ℕ) : Bus ι :=
  { s with notifyArg := Function.update s.notifyArg k .frame }

def setupWorkers (s : Bus ι) : Bus ι := (List.range msProcessNum).foldl messageThreadSetup s

def quenePop (s : Bus ι) (arg : Arg ι) : Except Fault (Option ι × Bus ι) :=
  match arg with
  | .quene k => .ok ((msQuenePop s.lists k).1, { s with lists := (msQuenePop s.lists k).2 })
  | _ => .error .type

/-- `message_notify` on the pipe of worker `k`, with the pointer it passed
to `message_dispatch`, if any.  It looks at `pms_thread->notify_event`
before it reads the byte. -/
def messageNotify (s : Bus ι) (k : ℕ) (ievent : ℕ) (pargs : Arg ι) (out : Outcome) :
    Except Fault (Bus ι × Option (Arg ι)) :=
  if evRead &&& ievent = evRead then
    match pargs with
    | .frame => .error .dangling
    | .thread j =>
        match s.notify k with
        | [] => .ok (s, none)
        | c :: rest =>
            match quenePop { s with notify := Function.update s.notify k rest } (.thread j) with
            | .error e => .error e
            | .ok (none, t) => .ok (t, none)
            | .ok (some _, t) =>
                -- what is dispatched is the thread and not the item
                if c = 'w' then (messageDispatch t (.thread j) out).map fun u ↦ (u, some (.thread j))
                else .ok (t, none)
    | _ => .error .type
  else .ok (s, none)

inductive Callback (ι : Type*)
  | accept (fd : ℤ) (written : Bool)
  | notify (k : ℕ) (ievent : ℕ) (out : Outcome)
  | socket (x : ι) (ievent : ℕ) (out : Outcome)
  | timer (x : ι) (ievent : ℕ) (out : Outcome)

/-- `message_notify` as libevent calls it: when a byte waits, and with the
argument the worker was set up with. -/
def Bus.notified (s : Bus ι) (k : ℕ) (ievent : ℕ) (out : Outcome) :
    Except Fault (Bus ι × Option (Arg ι)) :=
  if k < msProcessNum ∧ s.notify k ≠ [] then messageNotify s k ievent (s.notifyArg k) out
  else .error .unregistered

/-- One callback of the bus.  A socket or timer callback is made for a
pending event, with the descriptor it was assigned. -/
def Bus.step (msCommond : ℤ) (s : Bus ι) : Callback ι → Except Fault (Bus ι)
  | .accept fd written => evAcceptCb s fd written
  | .notify k ievent out => (s.notified k ievent out).map Prod.fst
  | .socket x ievent out =>
      if s.soketPending x then msHandler msCommond s (s.item x).soketEvt.evFd ievent x out
      else .error .unregistered
  | .timer x ievent out =>
      if s.timePending x then msHandler msCommond s (s.item x).timeEvt.evFd ievent x out
      else .error .unregistered

/-! ## What the callbacks of acceptor and workers do -/

def Bus.accepted (s : Bus ι) (fd : ℤ) (written : Bool) (x : ι) (lists : Lists ι ℕ) : Bus ι :=
  { s with
    lists := msQuenePush lists s.ithreadId x
    item := Function.update s.item x { s.item x with
      isockfd := fd
      soketEvt := Event.zero
      timeEvt := Event.zero }
    sockOpen := Function.update s.sockOpen x (0 ≤ fd)
    notify := if written then
        Function.update s.notify s.ithreadId (s.notify s.ithreadId ++ ['w'])
      else s.notify
    ithreadId := s.ithreadId + 1 }

theorem evAcceptCb_ok {s t : Bus ι} {fd : ℤ} {written : Bool} (h : evAcceptCb s fd written = .ok t) :
    s.ithreadId < msProcessNum ∧ ∃ x lists, msItemAlloc s.lists = (some x, lists) ∧
      t = s.accepted fd written x lists := by
  simp only [evAcceptCb] at h
  split at h
  · cases h
  · rename_i x lists hx
    by_cases hid : s.ithreadId < msProcessNum
    · rw [if_pos (by exact hid)] at h
      exact ⟨hid, x, lists, hx, (Except.ok.inj h).symm⟩
    · rw [if_neg (by exact hid)] at h
      cases h

theorem evAcceptCb_of_alloc {s : Bus ι} {fd : ℤ} {written : Bool} {x : ι} {lists : Lists ι ℕ}
    (hid : s.ithreadId < msProcessNum) (halloc : msItemAlloc s.lists = (some x, lists)) :
    evAcceptCb s fd written = .ok (s.accepted fd written x lists) := by
  simp only [evAcceptCb, halloc]
  exact if_pos hid

theorem Represents.accepted {s : Bus ι} {free : List ι} {quene : ℕ → List ι}
    (h : Represents s.lists free quene) (fd : ℤ) (written : Bool) {x : ι} {lists : Lists ι ℕ}
    (halloc : msItemAlloc s.lists = (some x, lists)) :
    ∃ rest, free = x :: rest ∧ Represents (s.accepted fd written x lists).lists rest
      (Function.update quene s.ithreadId (quene s.ithreadId ++ [x])) := by
  obtain ⟨hhead, hrest⟩ := h.alloc
  rw [halloc] at hhead hrest
  obtain ⟨rest, rfl⟩ : ∃ rest, free = x :: rest := by
    cases free with
    | nil => cases hhead
    | cons y rest => exact ⟨rest, by rw [Option.some.inj hhead]⟩
  have hx : x ∉ rest := (List.nodup_cons.mp h.chain_free.nodup).1
  exact ⟨rest, rfl, hrest.push s.ithreadId hx (h.free_quene x List.mem_cons_self)⟩

theorem messageNotify_frame {s : Bus ι} {k ievent : ℕ} {out : Outcome} :
    messageNotify s k ievent .frame out =
      if evRead &&& ievent = evRead then .error .dangling else .ok (s, none) := rfl

/-- `P` survives each of the updates that a dispatch of `x` is made of: it
does not look at the fields of `x` that the handlers set. -/
structure DispatchClosed (x : ι) (P : Bus ι → Prop) : Prop where
  setItem : ∀ s (item : Item), P s → item.pdatabuf = (s.item x).pdatabuf →
    item.ibufflen = (s.item x).ibufflen → P (s.setItem x item)
  sockOpen : ∀ s, P s → P { s with sockOpen := Function.update s.sockOpen x false }
  soketPending : ∀ s b, P s → P { s with soketPending := Function.update s.soketPending x b }
  timePending : ∀ s b, P s → P { s with timePending := Function.update s.timePending x b }
  readInto : ∀ s p out, P s → P (s.readInto p out)
  itemFree : ∀ s, P s → P (s.itemFree x)

namespace DispatchClosed

variable {x : ι} {P : Bus ι → Prop} {s : Bus ι}

theorem safeClose (hP : DispatchClosed x P) (h : P s) : P (s.safeClose x) := by
  unfold Bus.safeClose
  split
  · exact hP.sockOpen _ (hP.setItem s _ h rfl rfl)
  · exact hP.setItem s _ h rfl rfl

theorem hangUp (hP : DispatchClosed x P) (h : P s) :
    P (((s.safeClose x).eventDelSoket x).eventDelTime x) := by
  apply hP.timePending
  apply hP.soketPending
  exact hP.safeClose h

theorem freeOnError {r : ℤ × Bus ι} (hP : DispatchClosed x P) (h : P r.2) :
    P (Bus.freeOnError r x) := by
  unfold Bus.freeOnError
  split
  · exact hP.itemFree _ h
  · exact h

theorem msNewConnect (hP : DispatchClosed x P) (h : P s) (out : Outcome) :
    P (msNewConnect s x out).2 := by
  have hsoket := fun event ↦ hP.setItem s { s.item x with soketEvt := event } h rfl rfl
  have htime := fun event event' ↦ hP.setItem _
    { (s.setItem x { s.item x with soketEvt := event }).item x with timeEvt := event' }
    (hP.soketPending _ true (hsoket event)) rfl rfl
  simp only [Message.msNewConnect]
  split
  · exact hP.safeClose (hsoket _)
  split
  · exact hP.safeClose (hsoket _)
  split
  · exact hP.timePending _ _ (hP.safeClose (htime _ _))
  split
  · exact hP.timePending _ _ (hP.safeClose (hP.setItem _ _ (htime _ _) rfl rfl))
  · exact hP.timePending _ _ (hP.setItem _ _ (htime _ _) rfl rfl)

/-- The rule for properties of a whole dispatch. -/
theorem dispatchItem (hP : DispatchClosed x P) (h : P s) (out : Outcome) :
    P (dispatchItem s x out) := by
  unfold Message.dispatchItem
  split
  · exact hP.freeOnError (hP.msNewConnect h out)
  split
  · apply hP.freeOnError
    unfold msProcess
    split
    · exact hP.hangUp h
    · exact hP.readInto _ _ _ h
  split
  · apply hP.freeOnError
    unfold msReadMore
    split
    · exact hP.hangUp h
    · exact h
  split
  · exact hP.itemFree _ (hP.setItem _ _ (hP.hangUp h) rfl rfl)
  · exact h

end DispatchClosed

/-- The worker's callback only has an outcome when it does nothing. -/
theorem Bus.notified_ok {s : Bus ι} {k ievent : ℕ} {out : Outcome} {r : Bus ι × Option (Arg ι)}
    (h : s.notified k ievent out = .ok r) : r.1 = s := by
  simp only [notified, messageNotify] at h
  split_ifs at h with hk hev
  · cases harg : s.notifyArg k with
    | thread j =>
        cases hbytes : s.notify k with
        | nil => exact absurd hbytes hk.2
        | cons c rest => simp [harg, hbytes, quenePop] at h
    | item x => simp [harg] at h
    | quene j => simp [harg] at h
    | frame => simp [harg] at h
  · rw [← Except.ok.inj h]

theorem msHandler_ok {msCommond fd : ℤ} {s t : Bus ι} {ievent : ℕ} {x : ι} {out : Outcome}
    (h : msHandler msCommond s fd ievent x out = .ok t) :
    (evRead = ievent ∧
      t = dispatchItem (s.setItem x { s.item x with istatus := msCommond }) x out) ∨
    (evRead ≠ ievent ∧ t = s) := by
  have hconst : ¬evTimeout = evRead := by decide
  simp only [msHandler, messageDispatch, if_neg hconst] at h
  split_ifs at h with hfd hev
  · exact .inl ⟨hev, (Except.ok.inj h).symm⟩
  · exact .inr ⟨hev, (Except.ok.inj h).symm⟩

/-- What a callback that has an outcome does. -/
inductive StepCase (msCommond : ℤ) (s : Bus ι) : Callback ι → Bus ι → Prop
  | accept (fd : ℤ) (written : Bool) (x : ι) (lists : Lists ι ℕ)
      (hid : s.ithreadId < msProcessNum) (halloc : msItemAlloc s.lists = (some x, lists)) :
      StepCase msCommond s (.accept fd written) (s.accepted fd written x lists)
  | notify (k ievent : ℕ) (out : Outcome) : StepCase msCommond s (.notify k ievent out) s
  | socket (x : ι) (ievent : ℕ) (out : Outcome) (t : Bus ι) (hx : s.soketPending x = true)
      (h : ∃ fd, msHandler msCommond s fd ievent x out = .ok t) :
      StepCase msCommond s (.socket x ievent out) t
  | timer (x : ι) (ievent : ℕ) (out : Outcome) (t : Bus ι) (hx : s.timePending x = true)
      (h : ∃ fd, msHandler msCommond s fd ievent x out = .ok t) :
      StepCase msCommond s (.timer x ievent out) t

theorem Bus.stepCase {msCommond : ℤ} {s t : Bus ι} {callback : Callback ι}
    (h : s.step msCommond callback = .ok t) : StepCase msCommond s callback t := by
  cases callback with
  | accept fd written =>
      obtain ⟨hid, x, lists, halloc, rfl⟩ := evAcceptCb_ok h
      exact .accept fd written x lists hid halloc
  | notify k ievent out =>
      obtain ⟨r, hr, rfl⟩ := map_eq_ok_iff.mp h
      rw [notified_ok hr]
      exact .notify k ievent out
  | socket x ievent out =>
      simp only [step] at h
      split_ifs at h with hx
      exact .socket x ievent out t hx ⟨_, h⟩
  | timer x ievent out =>
      simp only [step] at h
      split_ifs at h with hx
      exact .timer x ievent out t hx ⟨_, h⟩

omit [DecidableEq ι] in
theorem setupWorkers_notifyArg (s : Bus ι) {k : ℕ} (hk : k < msProcessNum) :
    (setupWorkers s).notifyArg k = .frame := by
  have hloop : ∀ n, k < n →
      ((List.range n).foldl messageThreadSetup s).notifyArg k = .frame := by
    intro n hn
    induction n with
    | zero => omega
    | succ n ih =>
        rw [List.range_succ, List.foldl_append]
        by_cases hkn : k = n
        · subst hkn
          exact Function.update_self _ _ _
        · exact (Function.update_of_ne hkn _ _).trans (ih (by omega))
  exact hloop msProcessNum hk

end

/-- One item on the free list, its memory all zero, and idle workers. -/
def oneItemBus : Bus (Fin 1) :=
  setupWorkers
    { lists := ⟨fun _ ↦ none, some 0, fun _ ↦ none, fun _ ↦ none⟩
      item := fun _ ↦ ⟨Event.zero, Event.zero, ⟨0, 0⟩, 0, 0, 0, 0, 0⟩
      mem := fun _ ↦ 0
      ithreadId := 0
      notify := fun _ ↦ []
      notifyArg := fun _ ↦ .frame
      soketPending := fun _ ↦ false
      timePending := fun _ ↦ false
      sockOpen := fun _ ↦ false
      currentBase := 0x1000 }

theorem oneItemBus_represents : Represents oneItemBus.lists [0] fun _ ↦ [] :=
  .of_free ⟨rfl, rfl⟩

def quietOutcome : Outcome := ⟨0, 0, 0, 0, 0, fun _ ↦ 0, 0⟩

end Cocool.Message
