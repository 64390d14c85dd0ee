import Cocool.Pthread.Create
import Mathlib.Algebra.GroupWithZero.Nat

/-!
# What a new thread reads

The block that `cpthread_creat` hands over is right from `pthread_creat`
until the call returns.  A thread that runs later finds memory that is no
longer valid, or the block of the next call.
-/

namespace Cocool.Pthread

open Lib

variable {φ ω : Type} [Zero ω] {w v : World φ ω}

/-- The thread read the start function and the first `PTHREAD_ATGS_NUB`
arguments of its own call, from that call's block, during the call. -/
def Reading.Right (calls : List (Call φ ω)) (r : Reading φ ω) : Prop :=
  r.owner = some r.thread ∧ ∃ c, calls[r.thread]? = some c ∧
    r.seen.startFunc = some c.startFunc ∧
    ∀ (i : Fin pthreadAtgsNub) x, c.args[(i : ℕ)]? = some x → r.seen.param i = x

def Delivered (w : World φ ω) : Prop := ∀ r ∈ w.readings, r.Right w.calls

/-- The arguments that `char argc` does not count, as its value wraps
around, are zero. -/
def Call.Fits (c : Call φ ω) : Prop :=
  ∀ (i : Fin pthreadAtgsNub) x, c.argc ≤ i → c.args[(i : ℕ)]? = some x → x = 0

/-- A thread runs while the creator is still in the call that made it,
behind `pthread_creat`. -/
def InTime (w : World φ ω) : Act φ ω → Prop
  | .startRoutine k => k ∈ w.waiting →
      w.creator = .started ∧ k + 1 = w.calls.length ∧ ∀ c, w.calls.getLast? = some c → c.Fits
  | _ => True

/-- `char argc` counts fewer than 128 arguments as they are. -/
theorem Call.fits_of_length (c : Call φ ω) (hc : c.args.length < 128) : c.Fits := by
  intro i x hi hx
  have hlt : (i : ℕ) < c.args.length := by
    by_contra hge
    rw [List.getElem?_eq_none (Nat.le_of_not_lt hge)] at hx
    simp at hx
  have hchar : toChar c.args.length = c.args.length := by
    unfold toChar
    omega
  have hten : (i : ℕ) < pthreadAtgsNub := i.isLt
  rw [Call.argc, hchar] at hi
  omega

omit [Zero ω] in
theorem Reading.Right.append {calls : List (Call φ ω)} {r : Reading φ ω} (h : r.Right calls)
    (c : Call φ ω) : r.Right (calls ++ [c]) := by
  obtain ⟨howner, d, hd, hseen⟩ := h
  refine ⟨howner, d, ?_, hseen⟩
  obtain ⟨hlt, -⟩ := List.getElem?_eq_some_iff.mp hd
  rw [List.getElem?_append_left hlt]
  exact hd

theorem Call.block_param (c : Call φ ω) (i : Fin pthreadAtgsNub) :
    c.block.param i = if (i : ℕ) < c.argc then c.args[(i : ℕ)]?.getD 0 else 0 := by
  simp only [Call.block, Call.partialBlock]

/-- Up to the arguments that are not counted, the finished block is right. -/
theorem Call.block_right_iff (c : Call φ ω) :
    (∀ (i : Fin pthreadAtgsNub) x, c.args[(i : ℕ)]? = some x → c.block.param i = x) ↔
      c.Fits := by
  constructor
  · intro h i x hi hx
    have hparam := h i x hx
    rw [c.block_param, if_neg (Nat.not_lt.mpr hi)] at hparam
    exact hparam.symm
  · intro h i x hx
    rw [c.block_param]
    by_cases hi : (i : ℕ) < c.argc
    · rw [if_pos hi, hx]
      rfl
    · rw [if_neg hi]
      exact (h i x (Nat.le_of_not_lt hi) hx).symm

/-- What a thread would read now is right exactly when it is in time. -/
theorem Coherent.right_iff (hw : Coherent w) {k : ℕ} (hk : k ∈ w.waiting) :
    Reading.Right w.calls ⟨k, w.owner, w.threadparam⟩ ↔ InTime w (.startRoutine k) := by
  have hlt := hw.waiting_lt hk
  cases hcr : w.creator with
  | outside =>
      constructor
      · rintro ⟨howner, -⟩
        simp [World.owner, hcr] at howner
      · intro h
        have hstarted := (h hk).1
        simp [hcr] at hstarted
  | filling i =>
      simp only [Coherent, hcr] at hw
      obtain ⟨past, c, hcalls, -, -, hwait⟩ := hw
      have hpast := hwait k hk
      constructor
      · rintro ⟨howner, -⟩
        -- the active call has made no thread yet
        have hlast : w.calls.length - 1 = k := by simpa [World.owner, hcr] using howner
        rw [hcalls, List.length_append] at hlast
        simp only [List.length_cons, List.length_nil] at hlast
        omega
      · intro h
        have hstarted := (h hk).1
        simp [hcr] at hstarted
  | started =>
      simp only [Coherent, hcr] at hw
      obtain ⟨past, c, hcalls, hblock, -⟩ := hw
      have hlast : w.calls.getLast? = some c := by simp [hcalls]
      have hlen : w.calls.length = past.length + 1 := by simp [hcalls]
      have hat : w.calls[past.length]? = some c := by simp [hcalls]
      constructor
      · rintro ⟨howner, d, hd, -, hargs⟩ -
        have hkl : w.calls.length - 1 = k := by simpa [World.owner, hcr] using howner
        obtain rfl : past.length = k := by omega
        obtain rfl : c = d := Option.some.inj (hat.symm.trans hd)
        refine ⟨hcr, hlen.symm, fun e he ↦ ?_⟩
        obtain rfl : c = e := Option.some.inj (hlast.symm.trans he)
        rw [hblock] at hargs
        exact c.block_right_iff.mp hargs
      · intro h
        obtain ⟨-, hkl, hfits⟩ := h hk
        obtain rfl : past.length = k := by omega
        refine ⟨by simp [World.owner, hcr, hlen], c, hat, ?_, ?_⟩
        · rw [hblock]
          rfl
        · rw [hblock]
          exact c.block_right_iff.mpr (hfits c hlast)

theorem delivered_step {a : Act φ ω} (hw : Coherent w) (hold : Delivered w) (hin : InTime w a)
    (h : step w a = .ok v) : Delivered v := by
  rcases step_cases h with ⟨c, -, -, rfl⟩ | ⟨i, c, -, -, -, -, rfl⟩ |
    ⟨ok, i, c, -, -, -, -, rfl⟩ | ⟨-, -, rfl⟩ | ⟨k, rfl, hk, rfl⟩
  · intro r hr
    exact (hold r hr).append c
  · exact hold
  · exact hold
  · exact hold
  · intro r hr
    rcases List.mem_append.mp hr with hr | hr
    · exact hold r hr
    · rw [List.mem_singleton.mp hr]
      exact (hw.right_iff hk).mpr hin

theorem inTime_of_delivered {a : Act φ ω} (hw : Coherent w)
    (hnext : ∀ v, step w a = .ok v → Delivered v) : InTime w a := by
  cases a with
  | startRoutine k =>
      intro hk
      have hread := hnext _ (if_pos hk)
      exact (hw.right_iff hk).mp (hread _ (List.mem_append_right _ List.mem_cons_self)) hk
  | _ => trivial

/-- Every thread gets the arguments of its own call, whatever the schedule,
exactly when each thread runs before the call that made it returns. -/
theorem delivered_iff_inTime (acts : List (Act φ ω)) :
    Always step Delivered World.initial acts ↔ EachStep step InTime World.initial acts := by
  have hcoherent : Always step Coherent (World.initial : World φ ω) acts := by
    apply always_of_step _ coherent_initial
    intro w a v hw h
    exact coherent_step hw h
  constructor
  · intro h
    have hall : EachStep step (fun _ _ ↦ True) (World.initial : World φ ω) acts :=
      h.eachStep fun _ _ _ ↦ trivial
    apply eachStep_of_back _ _ coherent_initial hall h
    · intro w a v hw _ _ hv
      exact coherent_step hw hv
    · intro w a hw _ hnext
      exact inTime_of_delivered hw hnext
  · intro h
    have hinv : Always step (fun w ↦ Coherent w ∧ Delivered w) (World.initial : World φ ω) acts := by
      apply always_of_eachStep _ ⟨coherent_initial, fun r hr ↦ by simp [World.initial] at hr⟩ h
      intro w a v hw hin hv
      exact ⟨coherent_step hw.1 hv, delivered_step hw.1 hw.2 hin hv⟩
    exact hinv.mono fun w hw ↦ hw.2

/-- Two workers are started in a loop, and the first one runs when the
second call has filled the block: it gets the argument of the second. -/
theorem not_delivered_loop :
    ∃ (acts : List (Act ℕ ℕ)) (w : World ℕ ℕ), run step World.initial acts = .ok w ∧
      (w.readings.map fun r ↦ (r.thread, r.owner, r.seen.param ⟨0, by decide⟩)) = [(0, some 1, 8)] ∧
      (w.calls.map fun c ↦ c.args) = [[7], [8]] ∧
      ¬Always step Delivered World.initial acts := by
  obtain ⟨acts, w, hrun, hreadings, hcalls⟩ : ∃ (acts : List (Act ℕ ℕ)) (w : World ℕ ℕ),
      run step World.initial acts = .ok w ∧
      (w.readings.map fun r ↦ (r.thread, r.owner, r.seen.param ⟨0, by decide⟩)) = [(0, some 1, 8)] ∧
      (w.calls.map fun c ↦ c.args) = [[7], [8]] :=
    ⟨[.enter ⟨256000, 50, 0, [7]⟩, .fill, .create true, .leave,
      .enter ⟨256000, 50, 0, [8]⟩, .fill, .create true, .startRoutine 0], _, rfl, rfl, rfl⟩
  refine ⟨acts, w, hrun, hreadings, hcalls, fun h ↦ ?_⟩
  have hlast := h.last hrun
  obtain ⟨r, hr, hread⟩ := List.map_eq_singleton_iff.mp hreadings
  have howner := (hlast r (by simp [hr])).1
  simp only [Prod.mk.injEq] at hread
  rw [hread.1, hread.2.1] at howner
  simp at howner

end Cocool.Pthread
