import Mathlib.Tactic.TypeStar

/-!
# Runs of a partial step function

A step either produces the next state or stops with a fault.  The rules
below turn a statement about one step into a statement about every state
of a run, and relate a property of the visited states to a condition on
the steps taken.
-/

namespace Lib

universe u v

theorem map_eq_ok_iff {ε : Type u} {α β : Type v} {x : Except ε α} {f : α → β}
    {b : β} : x.map f = .ok b ↔ ∃ a, x = .ok a ∧ f a = b := by
  cases x <;> simp [Except.map]

theorem bind_eq_ok {ε : Type u} {α β : Type v} {x : Except ε α} {f : α → Except ε β} {b : β}
    (h : (x >>= f) = .ok b) : ∃ a, x = .ok a ∧ f a = .ok b := by
  cases x with
  | error e => simp [bind, Except.bind] at h
  | ok a => exact ⟨a, rfl, h⟩

section

variable {σ α ε : Type*} (step : σ → α → Except ε σ)

/-- The state after a list of actions, or the fault of the first action
that has one. -/
def run : σ → List α → Except ε σ
  | s, [] => .ok s
  | s, a :: as =>
      match step s a with
      | .ok t => run t as
      | .error e => .error e

/-- `P` holds in every state the run visits, the first one included. -/
def Always (P : σ → Prop) : σ → List α → Prop
  | s, [] => P s
  | s, a :: as => P s ∧ ∀ t, step s a = .ok t → Always P t as

/-- `Q` holds of every visited state and the action taken there. -/
def EachStep (Q : σ → α → Prop) : σ → List α → Prop
  | _, [] => True
  | s, a :: as => Q s a ∧ ∀ t, step s a = .ok t → EachStep Q t as

variable {step} {P P' : σ → Prop} {Q Q' : σ → α → Prop}

@[simp] theorem run_nil (s : σ) : run step s [] = .ok s := rfl

theorem run_cons_ok {s t : σ} {a : α} (h : step s a = .ok t) (as : List α) :
    run step s (a :: as) = run step t as := by
  simp [run, h]

theorem run_cons_eq_ok {s u : σ} {a : α} {as : List α} (h : run step s (a :: as) = .ok u) :
    ∃ t, step s a = .ok t ∧ run step t as = .ok u := by
  cases hs : step s a with
  | error e => simp [run, hs] at h
  | ok t => exact ⟨t, rfl, by simpa [run, hs] using h⟩

theorem Always.head {s : σ} {as : List α} (h : Always step P s as) : P s := by
  cases as with
  | nil => exact h
  | cons a as => exact h.1

theorem Always.last {s t : σ} {as : List α} (h : Always step P s as)
    (hrun : run step s as = .ok t) : P t := by
  induction as generalizing s with
  | nil =>
      have hst : s = t := by simpa using hrun
      exact hst ▸ h
  | cons a as ih =>
      obtain ⟨u, hu, hrest⟩ := run_cons_eq_ok hrun
      exact ih (h.2 u hu) hrest

theorem Always.mono {s : σ} {as : List α} (hP : ∀ t, P t → P' t)
    (h : Always step P s as) : Always step P' s as := by
  induction as generalizing s with
  | nil => exact hP s h
  | cons a as ih => exact ⟨hP s h.1, fun t ht ↦ ih (h.2 t ht)⟩

theorem EachStep.mono {s : σ} {as : List α} (hQ : ∀ t a, Q t a → Q' t a)
    (h : EachStep step Q s as) : EachStep step Q' s as := by
  induction as generalizing s with
  | nil => trivial
  | cons a as ih => exact ⟨hQ s a h.1, fun t ht ↦ ih (h.2 t ht)⟩

theorem EachStep.and {s : σ} {as : List α} (h : EachStep step Q s as)
    (h' : EachStep step Q' s as) : EachStep step (fun t a ↦ Q t a ∧ Q' t a) s as := by
  induction as generalizing s with
  | nil => trivial
  | cons a as ih => exact ⟨⟨h.1, h'.1⟩, fun t ht ↦ ih (h.2 t ht) (h'.2 t ht)⟩

theorem EachStep.of_forall {as : List α} (hQ : ∀ a ∈ as, ∀ t, Q t a) (s : σ) :
    EachStep step Q s as := by
  induction as generalizing s with
  | nil => trivial
  | cons a as ih =>
      exact ⟨hQ a List.mem_cons_self s, fun t _ ↦ ih (fun b hb ↦ hQ b (List.mem_cons_of_mem a hb)) t⟩

theorem EachStep.append {s : σ} {as bs : List α} (h : EachStep step Q s as)
    (h' : ∀ t, run step s as = .ok t → EachStep step Q t bs) :
    EachStep step Q s (as ++ bs) := by
  induction as generalizing s with
  | nil => exact h' s rfl
  | cons a as ih =>
      exact ⟨h.1, fun t ht ↦ ih (h.2 t ht) fun u hu ↦ h' u ((run_cons_ok ht as).trans hu)⟩

instance decidableAlways [DecidablePred P] :
    ∀ s as, Decidable (Always step P s as)
  | s, [] => inferInstanceAs (Decidable (P s))
  | s, a :: as =>
      match h : step s a with
      | .error e => decidable_of_iff (P s) (by simp [Always, h])
      | .ok t =>
          haveI := decidableAlways t as
          decidable_of_iff (P s ∧ Always step P t as) (by simp [Always, h])

instance decidableEachStep [∀ s a, Decidable (Q s a)] :
    ∀ s as, Decidable (EachStep step Q s as)
  | _, [] => isTrue trivial
  | s, a :: as =>
      match h : step s a with
      | .error e => decidable_of_iff (Q s a) (by simp [EachStep, h])
      | .ok t =>
          haveI := decidableEachStep t as
          decidable_of_iff (Q s a ∧ EachStep step Q t as) (by simp [EachStep, h])

instance decidableEqError [DecidableEq ε] (x : Except ε α) (e : ε) : Decidable (x = .error e) :=
  match x with
  | .ok _ => isFalse (by simp)
  | .error e' => decidable_of_iff (e' = e) (by simp)

/-- The invariant rule: what holds at the start and survives every step
that meets the condition holds all along a run of such steps. -/
theorem always_of_eachStep (hstep : ∀ s a t, P s → Q s a → step s a = .ok t → P t)
    {s : σ} {as : List α} (h0 : P s) (h : EachStep step Q s as) : Always step P s as := by
  induction as generalizing s with
  | nil => exact h0
  | cons a as ih => exact ⟨h0, fun t ht ↦ ih (hstep s a t h0 h.1 ht) (h.2 t ht)⟩

theorem always_of_step (hstep : ∀ s a t, P s → step s a = .ok t → P t)
    {s : σ} (h0 : P s) (as : List α) : Always step P s as := by
  induction as generalizing s with
  | nil => exact h0
  | cons a as ih => exact ⟨h0, fun t ht ↦ ih (hstep s a t h0 ht)⟩

theorem Always.and {s : σ} {as : List α} (h : Always step P s as)
    (h' : Always step P' s as) : Always step (fun t ↦ P t ∧ P' t) s as := by
  induction as generalizing s with
  | nil => exact ⟨h, h'⟩
  | cons a as ih => exact ⟨⟨h.1, h'.1⟩, fun t ht ↦ ih (h.2 t ht) (h'.2 t ht)⟩

theorem Always.eachStep {s : σ} {as : List α} (hQ : ∀ t a, P t → Q t a)
    (h : Always step P s as) : EachStep step Q s as := by
  induction as generalizing s with
  | nil => trivial
  | cons a as ih => exact ⟨hQ s a h.1, fun t ht ↦ ih (h.2 t ht)⟩

theorem Always.andEachStep {s : σ} {as : List α} (h : Always step P s as)
    (h' : EachStep step Q s as) : EachStep step (fun t a ↦ P t ∧ Q t a) s as := by
  induction as generalizing s with
  | nil => trivial
  | cons a as ih => exact ⟨⟨h.1, h'.1⟩, fun t ht ↦ ih (h.2 t ht) (h'.2 t ht)⟩

/-- Two conditions on the steps hold together, when one is what the other
needs to survive: out of the invariant `I` a step that meets `R` and stays
in `P` meets `Q`. -/
theorem eachStep_of_back {I : σ → Prop} {R : σ → α → Prop}
    (hstep : ∀ s a t, I s → R s a → Q s a → step s a = .ok t → I t)
    (hback : ∀ s a, I s → R s a → (∀ t, step s a = .ok t → P t) → Q s a)
    {s : σ} {as : List α} (h0 : I s) (hR : EachStep step R s as) (h : Always step P s as) :
    EachStep step Q s as := by
  induction as generalizing s with
  | nil => trivial
  | cons a as ih =>
      have hq : Q s a := hback s a h0 hR.1 fun t ht ↦ (h.2 t ht).head
      exact ⟨hq, fun t ht ↦ ih (hstep s a t h0 hR.1 hq ht) (hR.2 t ht) (h.2 t ht)⟩

theorem run_ne_error {e : ε} (hstep : ∀ s a t, P s → Q s a → step s a = .ok t → P t)
    (hfault : ∀ s a, P s → Q s a → step s a ≠ .error e)
    {s : σ} {as : List α} (h0 : P s) (h : EachStep step Q s as) :
    run step s as ≠ .error e := by
  induction as generalizing s with
  | nil => simp
  | cons a as ih =>
      cases hs : step s a with
      | error e' =>
          have hne := hfault s a h0 h.1
          simpa [run, hs] using hne
      | ok t =>
          rw [run_cons_ok hs]
          exact ih (hstep s a t h0 h.1 hs) (h.2 t hs)

theorem run_total (hstep : ∀ s a t, P s → Q s a → step s a = .ok t → P t)
    (htotal : ∀ s a, P s → Q s a → ∃ t, step s a = .ok t) {s : σ} {as : List α} (h0 : P s)
    (h : EachStep step Q s as) : ∃ t, run step s as = .ok t := by
  induction as generalizing s with
  | nil => exact ⟨s, rfl⟩
  | cons a as ih =>
      obtain ⟨t, ht⟩ := htotal s a h0 h.1
      rw [run_cons_ok ht]
      exact ih (hstep s a t h0 h.1 ht) (h.2 t ht)

/-- A run that stays in `P` and never stops with one of the faults in `E`
meets `Q` at each step, when a step out of the invariant `I` can only do
so by meeting `Q`. -/
theorem eachStep_of_always {I : σ → Prop} {E : ε → Prop}
    (hstep : ∀ s a t, I s → Q s a → step s a = .ok t → I t)
    (hback : ∀ s a, I s → (∀ t, step s a = .ok t → P t) →
      (∀ e, step s a = .error e → ¬E e) → Q s a)
    {s : σ} {as : List α} (h0 : I s) (h : Always step P s as)
    (hrun : ∀ e, E e → run step s as ≠ .error e) : EachStep step Q s as := by
  induction as generalizing s with
  | nil => trivial
  | cons a as ih =>
      have hq : Q s a := by
        refine hback s a h0 (fun t ht ↦ (h.2 t ht).head) fun e he hE ↦ ?_
        apply hrun e hE
        simp [run, he]
      refine ⟨hq, fun t ht ↦ ih (hstep s a t h0 hq ht) (h.2 t ht) fun e hE he ↦ ?_⟩
      apply hrun e hE
      rw [run_cons_ok ht, he]

/-- In a completed run that stays in `P` and whose steps meet `B`, a step
out of the invariant `I` meets `Q` as soon as it must to stay in `P`. -/
theorem eachStep_of_completed {I : σ → Prop} {B : σ → α → Prop}
    (hstep : ∀ s a t, I s → B s a → Q s a → step s a = .ok t → I t)
    (hback : ∀ s a t, I s → B s a → step s a = .ok t → P t → Q s a)
    {s t : σ} {as : List α} (h0 : I s) (hB : EachStep step B s as) (h : Always step P s as)
    (hrun : run step s as = .ok t) : EachStep step Q s as := by
  induction as generalizing s with
  | nil => trivial
  | cons a as ih =>
      obtain ⟨u, hu, hrest⟩ := run_cons_eq_ok hrun
      have hq : Q s a := hback s a u h0 hB.1 hu (h.2 u hu).head
      refine ⟨hq, fun w hw ↦ ?_⟩
      obtain rfl : u = w := Except.ok.inj (hu.symm.trans hw)
      exact ih (hstep s a u h0 hB.1 hq hu) (hB.2 u hu) (h.2 u hu) hrest

/-- Exactness for a completed run: it stays in `P` exactly when each of its
steps meets `Q`. -/
theorem always_iff_eachStep {I : σ → Prop} (hI : ∀ s, I s → P s)
    (hstep : ∀ s a t, I s → Q s a → step s a = .ok t → I t)
    (hback : ∀ s a t, I s → step s a = .ok t → P t → Q s a)
    {s t : σ} {as : List α} (h0 : I s) (hrun : run step s as = .ok t) :
    Always step P s as ↔ EachStep step Q s as := by
  constructor
  · intro h
    have hall : EachStep step (fun _ _ ↦ True) s as := h.eachStep fun _ _ _ ↦ trivial
    apply eachStep_of_completed (fun s a t hs _ hq ht ↦ hstep s a t hs hq ht) ?_ h0 hall h hrun
    exact fun s a t hs _ ht hp ↦ hback s a t hs ht hp
  · intro h
    exact (always_of_eachStep hstep h0 h).mono hI

end

end Lib
