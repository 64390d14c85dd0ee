import Mathlib.Data.Nat.Notation
import Mathlib.Tactic.TypeStar

/-!
# Machines with answers

A machine takes operations and answers each of them.  A partial machine that
follows a total one step by step gives the same answers in every run of
operations that the total one allows.
-/

namespace Lib

section

variable {σ τ α β ε : Type*}

/-- A run of a partial machine: the last state and the answers in order. -/
def answers (step : σ → α → Except ε (σ × β)) : σ → List α → Except ε (σ × List β)
  | s, [] => .ok (s, [])
  | s, a :: as =>
      match step s a with
      | .error e => .error e
      | .ok (s, b) =>
          match answers step s as with
          | .error e => .error e
          | .ok (s, bs) => .ok (s, b :: bs)

/-- A run of a total machine. -/
def idealAnswers (step : τ → α → τ × β) : τ → List α → τ × List β
  | t, [] => (t, [])
  | t, a :: as =>
      let (t, b) := step t a
      let (t, bs) := idealAnswers step t as
      (t, b :: bs)

/-- Each operation is allowed in the state in which it comes. -/
def Allowed (step : τ → α → τ × β) (Q : τ → α → Prop) : τ → List α → Prop
  | _, [] => True
  | t, a :: as => Q t a ∧ Allowed step Q (step t a).1 as

theorem Allowed.of_forall {step : τ → α → τ × β} {Q : τ → α → Prop} {as : List α} (t : τ)
    (h : ∀ a ∈ as, ∀ t, Q t a) : Allowed step Q t as := by
  induction as generalizing t with
  | nil => trivial
  | cons a as ih =>
      exact ⟨h a List.mem_cons_self t, ih _ fun b hb ↦ h b (List.mem_cons_of_mem a hb)⟩

/-- The machines `R` relates stay related, with a bound that grows by one. -/
theorem answers_of_step {step : σ → α → Except ε (σ × β)} {ideal : τ → α → τ × β}
    {Q : τ → α → Prop} (R : ℕ → σ → τ → Prop) {bound : ℕ}
    (hstep : ∀ n s t a, n < bound → R n s t → Q t a →
      ∃ s', step s a = .ok (s', (ideal t a).2) ∧ R (n + 1) s' (ideal t a).1)
    {n : ℕ} {s : σ} {t : τ} {as : List α} (hn : n + as.length ≤ bound) (h : R n s t)
    (hQ : Allowed ideal Q t as) :
    ∃ s', answers step s as = .ok (s', (idealAnswers ideal t as).2) ∧
      R (n + as.length) s' (idealAnswers ideal t as).1 := by
  induction as generalizing n s t with
  | nil => exact ⟨s, rfl, h⟩
  | cons a as ih =>
      rw [List.length_cons] at hn ⊢
      obtain ⟨s₁, hs₁, h₁⟩ := hstep n s t a (by omega) h hQ.1
      obtain ⟨s', hs', h'⟩ := ih (by omega) h₁ hQ.2
      refine ⟨s', ?_, ?_⟩
      · simp only [answers, hs₁, hs', idealAnswers]
      · rwa [Nat.add_comm as.length, ← Nat.add_assoc]

/-- A run of a machine of which only a relation is known: the answers it may
give and the state it may end in. -/
def Follows (spec : τ → α → β → τ → Prop) : τ → List α → List β → τ → Prop
  | t, [], bs, t' => bs = [] ∧ t' = t
  | t, a :: as, bs, t' =>
      ∃ b bs' t₁, bs = b :: bs' ∧ spec t a b t₁ ∧ Follows spec t₁ as bs' t'

/-- What holds of each state together with the operations and answers so far. -/
theorem Follows.history {spec : τ → α → β → τ → Prop} {P : α → Prop}
    {I : τ → List (α × β) → Prop}
    (hstep : ∀ t h a b t', I t h → spec t a b t' → P a → I t' (h ++ [(a, b)]))
    {t t' : τ} {as : List α} {bs : List β} (hfollows : Follows spec t as bs t')
    {h : List (α × β)} (hI : I t h) (hP : ∀ a ∈ as, P a) : I t' (h ++ as.zip bs) := by
  induction as generalizing t bs h with
  | nil =>
      obtain ⟨rfl, rfl⟩ := hfollows
      rwa [List.zip_nil_left, List.append_nil]
  | cons a as ih =>
      obtain ⟨b, bs, t₁, rfl, hspec, hrest⟩ := hfollows
      have hmid := hstep t h a b t₁ hI hspec (hP a List.mem_cons_self)
      have hend := ih hrest hmid fun c hc ↦ hP c (List.mem_cons_of_mem a hc)
      rwa [List.append_assoc] at hend

/-- The machine follows the relation from related states on, when it is given
operations that satisfy `P`. -/
theorem answers_follow {step : σ → α → Except ε (σ × β)} {spec : τ → α → β → τ → Prop}
    {P : α → Prop} (R : ℕ → σ → τ → Prop) {bound : ℕ}
    (hstep : ∀ n s t a, n < bound → R n s t → P a →
      ∃ s' b t', step s a = .ok (s', b) ∧ spec t a b t' ∧ R (n + 1) s' t')
    {n : ℕ} {s : σ} {t : τ} {as : List α} (hn : n + as.length ≤ bound) (h : R n s t)
    (hP : ∀ a ∈ as, P a) :
    ∃ s' bs t', answers step s as = .ok (s', bs) ∧ Follows spec t as bs t' ∧
      R (n + as.length) s' t' := by
  induction as generalizing n s t with
  | nil => exact ⟨s, [], t, rfl, ⟨rfl, rfl⟩, h⟩
  | cons a as ih =>
      rw [List.length_cons] at hn ⊢
      obtain ⟨s₁, b, t₁, hs₁, hspec, h₁⟩ := hstep n s t a (by omega) h (hP a List.mem_cons_self)
      obtain ⟨s', bs, t', hs', hbs, h'⟩ := ih (by omega) h₁ fun c hc ↦
        hP c (List.mem_cons_of_mem a hc)
      refine ⟨s', b :: bs, t', ?_, ⟨b, bs, t₁, rfl, hspec, hbs⟩, ?_⟩
      · simp only [answers, hs₁, hs']
      · rwa [Nat.add_comm as.length, ← Nat.add_assoc]

end

end Lib
