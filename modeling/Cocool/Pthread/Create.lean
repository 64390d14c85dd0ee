import Cocool.Lib.Runs
import Mathlib.Data.List.Basic
import Mathlib.Data.Int.Init

/-!
# Starting threads

`cpthread_creat` of `co_pthread.c` fills a `pthread_param` on its own stack
and hands its address to the new thread, whose `start_routine` reads it
when it gets to run.  Here one creator makes any number of calls, and the
threads it has made run at any time.
-/

namespace Cocool.Pthread

open Lib

/-- `PTHREAD_ATGS_NUB`. -/
def pthreadAtgsNub : ℕ := 10

/-- `pthread_param`, for start functions `φ` and arguments `ω`. -/
structure PthreadParam (φ ω : Type) where
  startFunc : Option φ
  param : Fin pthreadAtgsNub → ω

/-- What one call of `cpthread_creat` is given. -/
structure Call (φ ω : Type) where
  stacksize : ℤ
  ipriority : ℤ
  startFunc : φ
  args : List ω

/-- The two attributes that `cpthread_creat` sets. -/
structure PthreadAttr where
  stacksize : ℤ
  schedPriority : ℤ
  deriving DecidableEq

variable {φ ω : Type}

/-- An `int` as a signed `char` of eight bits. -/
def toChar (n : ℤ) : ℤ := (n + 128) % 256 - 128

/-- The number of arguments as the parameter `char argc` holds it, cut off
at `PTHREAD_ATGS_NUB`: how often the loop over the arguments turns. -/
def Call.argc (c : Call φ ω) : ℕ := (min (toChar c.args.length) pthreadAtgsNub).toNat

def Call.attr (c : Call φ ω) : PthreadAttr where
  stacksize :=
    if c.stacksize < 256 then 256
    else if 8 * 1024 * 1024 < c.stacksize then 8 * 1024 * 1024
    else c.stacksize
  schedPriority := if 99 < c.ipriority ∨ c.ipriority < 1 then 50 else c.ipriority

/-- Where the creator is: outside of `cpthread_creat`, in it with `i`
arguments stored, or in it behind `pthread_creat`. -/
inductive Creator
  | outside
  | filling (i : ℕ)
  | started
  deriving DecidableEq

/-- What the `start_routine` of the thread made by call `thread` read, and
the call whose block that was, if any call was active. -/
structure Reading (φ ω : Type) where
  thread : ℕ
  owner : Option ℕ
  seen : PthreadParam φ ω

/-- The calls so far, the last one of them active unless the creator is
outside, the cell on the creator's stack, and the threads: all that were
made, those that have not run yet and what the others read. -/
structure World (φ ω : Type) where
  calls : List (Call φ ω)
  creator : Creator
  threadparam : PthreadParam φ ω
  made : List (ℕ × PthreadAttr)
  waiting : List ℕ
  readings : List (Reading φ ω)

inductive Act (φ ω : Type)
  | enter (c : Call φ ω)
  | fill
  | create (ok : Bool)
  | leave
  | startRoutine (k : ℕ)

/-- The action is not one that the creator or a thread can take now. -/
inductive Blocked
  | blocked
  deriving DecidableEq

section

variable [Zero ω]

/-- `bzero(&threadparam, sizeof(threadparam))`. -/
def zeroed : PthreadParam φ ω := ⟨none, fun _ ↦ 0⟩

def World.initial : World φ ω := ⟨[], .outside, zeroed, [], [], []⟩

/-- The call whose automatic variable the cell is at the moment. -/
def World.owner (w : World φ ω) : Option ℕ :=
  match w.creator with
  | .outside => none
  | _ => some (w.calls.length - 1)

/-- `threadparam.param[i] = va_arg(ap, void)`. -/
def PthreadParam.store (p : PthreadParam φ ω) (i : ℕ) (x : ω) : PthreadParam φ ω :=
  { p with param := fun j ↦ if (j : ℕ) = i then x else p.param j }

def step (w : World φ ω) : Act φ ω → Except Blocked (World φ ω)
  | .enter c =>
      match w.creator with
      | .outside =>
          .ok { w with calls := w.calls ++ [c], creator := .filling 0, threadparam := zeroed }
      | _ => .error .blocked
  | .fill =>
      match w.creator, w.calls.getLast? with
      | .filling i, some c =>
          if i < c.argc then
            .ok { w with
              creator := .filling (i + 1)
              threadparam := w.threadparam.store i (c.args[i]?.getD 0) }
          else .error .blocked
      | _, _ => .error .blocked
  | .create ok =>
      match w.creator, w.calls.getLast? with
      | .filling i, some c =>
          if i < c.argc then .error .blocked
          else
            -- the result of `pthread_creat` is not looked at
            .ok { w with
              creator := .started
              threadparam := { w.threadparam with startFunc := some c.startFunc }
              made := if ok then w.made ++ [(w.calls.length - 1, c.attr)] else w.made
              waiting := if ok then w.waiting ++ [w.calls.length - 1] else w.waiting }
      | _, _ => .error .blocked
  | .leave =>
      match w.creator with
      | .started => .ok { w with creator := .outside }
      | _ => .error .blocked
  | .startRoutine k =>
      if k ∈ w.waiting then
        .ok { w with
          waiting := w.waiting.erase k
          readings := w.readings ++ [⟨k, w.owner, w.threadparam⟩] }
      else .error .blocked

/-! ## The block of the active call -/

/-- The block of call `c` with its first `i` arguments stored. -/
def Call.partialBlock (c : Call φ ω) (i : ℕ) : PthreadParam φ ω where
  startFunc := none
  param := fun j ↦ if (j : ℕ) < i then c.args[(j : ℕ)]?.getD 0 else 0

/-- The block that `pthread_creat` passes on for call `c`. -/
def Call.block (c : Call φ ω) : PthreadParam φ ω :=
  { c.partialBlock c.argc with startFunc := some c.startFunc }

theorem partialBlock_zero (c : Call φ ω) : c.partialBlock 0 = zeroed := by
  simp [Call.partialBlock, zeroed]

theorem partialBlock_succ (c : Call φ ω) (i : ℕ) :
    (c.partialBlock i).store i (c.args[i]?.getD 0) = c.partialBlock (i + 1) := by
  simp only [Call.partialBlock, PthreadParam.store, PthreadParam.mk.injEq, true_and]
  funext j
  rcases Nat.lt_trichotomy (j : ℕ) i with hlt | heq | hgt
  · simp [Nat.ne_of_lt hlt, hlt, Nat.lt_succ_of_lt hlt]
  · simp [heq]
  · simp [Nat.ne_of_gt hgt, Nat.not_lt.mpr (Nat.le_of_lt hgt),
      Nat.not_lt.mpr (Nat.succ_le_of_lt hgt)]

/-- The threads that wait were made by calls so far; while a block is being
filled none of them belongs to the active call, and afterwards the block is
complete. -/
def Coherent (w : World φ ω) : Prop :=
  match w.creator with
  | .outside => ∀ k ∈ w.waiting, k < w.calls.length
  | .filling i => ∃ past c, w.calls = past ++ [c] ∧ i ≤ c.argc ∧
      w.threadparam = c.partialBlock i ∧ ∀ k ∈ w.waiting, k < past.length
  | .started => ∃ past c, w.calls = past ++ [c] ∧ w.threadparam = c.block ∧
      ∀ k ∈ w.waiting, k < w.calls.length

theorem coherent_initial : Coherent (World.initial : World φ ω) := by
  intro k hk
  simp [World.initial] at hk

variable {w v : World φ ω}

theorem Coherent.waiting_lt (hw : Coherent w) {k : ℕ} (hk : k ∈ w.waiting) :
    k < w.calls.length := by
  unfold Coherent at hw
  split at hw
  · exact hw k hk
  · obtain ⟨past, c, hcalls, -, -, hall⟩ := hw
    have hlt := hall k hk
    rw [hcalls, List.length_append]
    exact Nat.lt_add_right _ hlt
  · obtain ⟨past, c, -, -, hall⟩ := hw
    exact hall k hk

/-- What one action does, with the case that allows it. -/
theorem step_cases {a : Act φ ω} (h : step w a = .ok v) :
    (∃ c, a = .enter c ∧ w.creator = .outside ∧
      v = { w with calls := w.calls ++ [c], creator := .filling 0, threadparam := zeroed }) ∨
    (∃ i c, a = .fill ∧ w.creator = .filling i ∧ w.calls.getLast? = some c ∧ i < c.argc ∧
      v = { w with
        creator := .filling (i + 1)
        threadparam := w.threadparam.store i (c.args[i]?.getD 0) }) ∨
    (∃ ok i c, a = .create ok ∧ w.creator = .filling i ∧ w.calls.getLast? = some c ∧
      c.argc ≤ i ∧ v = { w with
        creator := .started
        threadparam := { w.threadparam with startFunc := some c.startFunc }
        made := if ok then w.made ++ [(w.calls.length - 1, c.attr)] else w.made
        waiting := if ok then w.waiting ++ [w.calls.length - 1] else w.waiting }) ∨
    (a = .leave ∧ w.creator = .started ∧ v = { w with creator := .outside }) ∨
    (∃ k, a = .startRoutine k ∧ k ∈ w.waiting ∧ v = { w with
      waiting := w.waiting.erase k
      readings := w.readings ++ [⟨k, w.owner, w.threadparam⟩] }) := by
  cases a with
  | enter c =>
      simp only [step] at h
      split at h
      · next hout => exact .inl ⟨c, rfl, hout, (Except.ok.inj h).symm⟩
      · simp at h
  | fill =>
      simp only [step] at h
      split at h
      · next i c hi hc =>
          split at h
          · next hlt =>
              exact .inr (.inl ⟨i, c, rfl, hi, hc, hlt, (Except.ok.inj h).symm⟩)
          · simp at h
      · simp at h
  | create ok =>
      simp only [step] at h
      split at h
      · next i c hi hc =>
          split at h
          · simp at h
          · next hge =>
              exact .inr (.inr (.inl ⟨ok, i, c, rfl, hi, hc, Nat.le_of_not_lt hge,
                (Except.ok.inj h).symm⟩))
      · simp at h
  | leave =>
      simp only [step] at h
      split at h
      · next hs => exact .inr (.inr (.inr (.inl ⟨rfl, hs, (Except.ok.inj h).symm⟩)))
      · simp at h
  | startRoutine k =>
      simp only [step] at h
      split at h
      · next hk => exact .inr (.inr (.inr (.inr ⟨k, rfl, hk, (Except.ok.inj h).symm⟩)))
      · simp at h

theorem coherent_step {a : Act φ ω} (hw : Coherent w) (h : step w a = .ok v) : Coherent v := by
  rcases step_cases h with ⟨c, -, hout, rfl⟩ | ⟨i, c, -, hi, hc, hlt, rfl⟩ |
    ⟨ok, i, c, -, hi, hc, hge, rfl⟩ | ⟨-, -, rfl⟩ | ⟨k, -, hk, rfl⟩
  · exact ⟨w.calls, c, rfl, Nat.zero_le _, (partialBlock_zero c).symm,
      fun k hk ↦ hw.waiting_lt hk⟩
  · simp only [Coherent, hi] at hw
    obtain ⟨past, d, hcalls, -, hblock, hwait⟩ := hw
    obtain rfl : d = c := by simpa [hcalls] using hc
    refine ⟨past, d, hcalls, hlt, ?_, hwait⟩
    rw [hblock]
    exact partialBlock_succ d i
  · have hall : ∀ k ∈ w.waiting, k < w.calls.length := fun k hk ↦ hw.waiting_lt hk
    simp only [Coherent, hi] at hw
    obtain ⟨past, d, hcalls, hle, hblock, -⟩ := hw
    obtain rfl : d = c := by simpa [hcalls] using hc
    refine ⟨past, d, hcalls, ?_, fun k hk ↦ ?_⟩
    · rw [hblock, Nat.le_antisymm hle hge]
      rfl
    · cases ok with
      | false => exact hall k hk
      | true =>
          rcases List.mem_append.mp hk with hk | hk
          · exact hall k hk
          · have hpos : 0 < w.calls.length := by simp [hcalls]
            rw [List.mem_singleton.mp hk]
            exact Nat.sub_lt hpos Nat.one_pos
  · exact fun k hk ↦ hw.waiting_lt hk
  · have hsub : ∀ j ∈ w.waiting.erase k, j ∈ w.waiting := fun j hj ↦ List.mem_of_mem_erase hj
    cases hcr : w.creator with
    | outside =>
        simp only [Coherent, hcr] at hw ⊢
        exact fun j hj ↦ hw j (hsub j hj)
    | filling i =>
        simp only [Coherent, hcr] at hw ⊢
        obtain ⟨past, c, hcalls, hle, hblock, hwait⟩ := hw
        exact ⟨past, c, hcalls, hle, hblock, fun j hj ↦ hwait j (hsub j hj)⟩
    | started =>
        simp only [Coherent, hcr] at hw ⊢
        obtain ⟨past, c, hcalls, hblock, hwait⟩ := hw
        exact ⟨past, c, hcalls, hblock, fun j hj ↦ hwait j (hsub j hj)⟩

/-! ## Attributes -/

omit [Zero ω] in
/-- Whatever a call asks for, its thread gets a stack of 256 bytes to 8 MiB
and a priority from 1 to 99. -/
theorem Call.attr_bounds (c : Call φ ω) :
    256 ≤ c.attr.stacksize ∧ c.attr.stacksize ≤ 8 * 1024 * 1024 ∧ 1 ≤ c.attr.schedPriority ∧
      c.attr.schedPriority ≤ 99 := by
  unfold Call.attr
  dsimp only
  refine ⟨?_, ?_, ?_, ?_⟩ <;> split_ifs <;> omega

/-- Every thread was made with the attributes of a call so far. -/
def Attributed (w : World φ ω) : Prop :=
  ∀ m ∈ w.made, ∃ c ∈ w.calls, m.2 = c.attr

theorem attributed_step {a : Act φ ω} (hw : Attributed w) (h : step w a = .ok v) :
    Attributed v := by
  rcases step_cases h with ⟨c, -, -, rfl⟩ | ⟨i, c, -, -, -, -, rfl⟩ |
    ⟨ok, i, c, -, -, hc, -, rfl⟩ | ⟨-, -, rfl⟩ | ⟨k, -, -, rfl⟩
  · intro m hm
    obtain ⟨d, hd, hattr⟩ := hw m hm
    exact ⟨d, List.mem_append_left [c] hd, hattr⟩
  · exact hw
  · intro m hm
    cases ok with
    | false => exact hw m hm
    | true =>
        rcases List.mem_append.mp hm with hm | hm
        · exact hw m hm
        · exact ⟨c, List.mem_of_getLast? hc, by rw [List.mem_singleton.mp hm]⟩
  · exact hw
  · exact hw

theorem made_bounds (acts : List (Act φ ω)) :
    Always step (fun w ↦ ∀ m ∈ w.made, 256 ≤ m.2.stacksize ∧ m.2.stacksize ≤ 8 * 1024 * 1024 ∧
      1 ≤ m.2.schedPriority ∧ m.2.schedPriority ≤ 99) (World.initial : World φ ω) acts := by
  have hall : Always step Attributed (World.initial : World φ ω) acts := by
    apply always_of_step (fun w a v hw h ↦ attributed_step hw h)
    intro m hm
    simp [World.initial] at hm
  apply hall.mono
  intro w hw m hm
  obtain ⟨c, -, hattr⟩ := hw m hm
  rw [hattr]
  exact c.attr_bounds

end

end Cocool.Pthread
