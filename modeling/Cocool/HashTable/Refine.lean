import Cocool.HashTable.Operations
import Cocool.Lib.Simulation
import Mathlib.Algebra.Order.BigOperators.Group.List
import Mathlib.Data.List.TakeWhile

/-!
# The table against a map

A client inserts, removes, looks up and clears.  Whatever the allocator does
meanwhile, the answers are those of a map whose keys do not distinguish case.
-/

namespace Cocool.HashTable

open Lib

variable {ι δ : Type}

/-- The calls of a client, with what the allocator answers during the call. -/
inductive HashOp (ι δ : Type)
  | insert (mem : Malloc ι) (pKey : List UInt8) (data : Option δ)
  | find (pKey : List UInt8)
  | clear

section

variable [DecidableEq ι]

def hashStep (sq : Sqlite) (s : Hash ι δ) : HashOp ι δ → Except Fault (Hash ι δ × Option δ)
  | .insert mem pKey data => sqlite3HashInsert sq mem s pKey data
  | .find pKey => do return (s, ← sqlite3HashFind sq s pKey)
  | .clear => do return (← sqlite3HashClear s, none)

end

/-- A map with the same calls.  Without data the key is removed, and a new key
whose element cannot be allocated gives the data back. -/
def mapStep (sq : Sqlite) (m : List UInt8 → Option δ) :
    HashOp ι δ → (List UInt8 → Option δ) × Option δ
  | .insert mem pKey data =>
      match m (sq.fold pKey) with
      | some old => (Function.update m (sq.fold pKey) data, some old)
      | none =>
          match data, mem.elem with
          | none, _ => (m, none)
          | some data, none => (m, some data)
          | some data, some _ => (Function.update m (sq.fold pKey) (some data), none)
  | .find pKey => (m, m (sq.fold pKey))
  | .clear => (fun _ ↦ none, none)

/-- The allocator refuses no block during the call. -/
def HashOp.Unfailing : HashOp ι δ → Prop
  | .insert mem _ _ => mem.Unfailing
  | _ => True

variable [DecidableEq ι] {s s' : Hash ι δ} {x : ι} {l l' l₁ l₂ : List ι} {sq : Sqlite}
  {m : List UInt8 → Option δ} {pKey : List UInt8} {data : δ}

/-- The elements of `l` are the entries of the map. -/
def Maps (sq : Sqlite) (s : Hash ι δ) (l : List ι) (m : List UInt8 → Option δ) : Prop :=
  ∀ k d, m k = some d ↔ ∃ z ∈ l, sq.fold (s.elem z).pKey = k ∧ (s.elem z).data = some d

namespace Stored

omit [DecidableEq ι] in
theorem find_none (hm : Maps sq s l m) (hfind : l.find? (sameKey sq s pKey) = none) :
    m (sq.fold pKey) = none := by
  rw [Option.eq_none_iff_forall_ne_some]
  intro d hd
  obtain ⟨z, hz, hzk, -⟩ := (hm _ d).1 hd
  exact List.find?_eq_none.1 hfind z hz (by simpa [sameKey] using hzk)

omit [DecidableEq ι] in
theorem find_some (hs : Stored sq s l) (hm : Maps sq s l m)
    (hfind : l.find? (sameKey sq s pKey) = some x) :
    x ∈ l ∧ sq.fold (s.elem x).pKey = sq.fold pKey ∧ (s.elem x).data = m (sq.fold pKey) ∧
      (s.elem x).data.isSome := by
  have hx := List.mem_of_find?_eq_some hfind
  have hkey : sq.fold (s.elem x).pKey = sq.fold pKey := by
    simpa [sameKey] using List.find?_some hfind
  obtain ⟨d, hd⟩ := Option.isSome_iff_exists.1 (hs.data x hx)
  exact ⟨hx, hkey, hd.trans ((hm _ d).2 ⟨x, hx, hkey, hd⟩).symm, hs.data x hx⟩

theorem elemData_find (hs : Stored sq s l) (hm : Maps sq s l m) (pKey : List UInt8) :
    elemData s (l.find? (sameKey sq s pKey)) = .ok (m (sq.fold pKey)) := by
  cases hfind : l.find? (sameKey sq s pKey) with
  | none =>
      rw [find_none hm hfind]
      rfl
  | some x =>
      obtain ⟨hx, -, hdata, -⟩ := hs.find_some hm hfind
      rw [elemData, Hash.read_of_live (hs.live x hx), ← hdata]
      rfl

end Stored

namespace Maps

omit [DecidableEq ι] in
theorem init : Maps sq s [] fun _ ↦ none := by
  intro k d
  simp

omit [DecidableEq ι] in
/-- The entry of an element that is removed. -/
theorem erase (hm : Maps sq s (l₁ ++ x :: l₂) m) (hs : Stored sq s (l₁ ++ x :: l₂))
    (hkey : sq.fold (s.elem x).pKey = sq.fold pKey)
    (hdata : ∀ z, (s'.elem z).data = (s.elem z).data)
    (hpKey : ∀ z, (s'.elem z).pKey = (s.elem z).pKey) :
    Maps sq s' (l₁ ++ l₂) (Function.update m (sq.fold pKey) none) := by
  intro k d
  have hx : x ∈ l₁ ++ x :: l₂ := by simp
  have hsub : l₁ ++ l₂ ⊆ l₁ ++ x :: l₂ := fun z hz ↦
    List.perm_middle.mem_iff.2 (List.mem_cons_of_mem x hz)
  have hne : ∀ z ∈ l₁ ++ l₂, z ≠ x := fun z hz ↦
    ne_of_mem_of_not_mem hz (List.nodup_cons.1 (List.nodup_middle.1 hs.nodup)).1
  simp only [hdata, hpKey, Function.update_apply]
  by_cases hk : k = sq.fold pKey
  · rw [if_pos hk]
    constructor
    · intro h
      cases h
    · rintro ⟨z, hz, hzk, -⟩
      have hzx := hs.eq_of_key (hsub hz) hx (hzk.trans (hk.trans hkey.symm))
      exact absurd hzx (hne z hz)
  · rw [if_neg hk, hm]
    constructor
    · rintro ⟨z, hz, hzk, hzd⟩
      refine ⟨z, ?_, hzk, hzd⟩
      rcases List.mem_cons.1 (List.perm_middle.mem_iff.1 hz) with rfl | hz
      · exact absurd (hzk.symm.trans hkey) hk
      · exact hz
    · rintro ⟨z, hz, hzk, hzd⟩
      exact ⟨z, hsub hz, hzk, hzd⟩

/-- The entry of an element that gets new data. -/
theorem replace (hm : Maps sq s l m) (hs : Stored sq s l) (hx : x ∈ l)
    (hkey : sq.fold (s.elem x).pKey = sq.fold pKey) :
    Maps sq (s.withEntry x pKey data) l (Function.update m (sq.fold pKey) (some data)) := by
  intro k d
  simp only [Hash.withEntry_data, Hash.withEntry_pKey, Function.update_apply]
  by_cases hk : k = sq.fold pKey
  · rw [if_pos hk]
    constructor
    · intro hd
      exact ⟨x, hx, by rw [if_pos rfl, hk], by rw [if_pos rfl, hd]⟩
    · rintro ⟨z, hz, hzk, hzd⟩
      by_cases hzx : z = x
      · rwa [if_pos hzx] at hzd
      · rw [if_neg hzx] at hzk
        exact absurd (hs.eq_of_key hz hx (hzk.trans (hk.trans hkey.symm))) hzx
  · rw [if_neg hk, hm]
    refine exists_congr fun z ↦ and_congr_right fun hz ↦ ?_
    by_cases hzx : z = x
    · rw [if_pos hzx, if_pos hzx, hzx, hkey]
      exact ⟨fun h ↦ absurd h.1.symm hk, fun h ↦ absurd h.1.symm hk⟩
    · rw [if_neg hzx, if_neg hzx]

omit [DecidableEq ι] in
/-- The entry of a new element. -/
theorem add (hm : Maps sq s l m) (hadd : Added s s' x pKey data) (hx : x ∉ l)
    (hnone : m (sq.fold pKey) = none) (hl' : l'.Perm (x :: l)) :
    Maps sq s' l' (Function.update m (sq.fold pKey) (some data)) := by
  intro k d
  have hold : (∃ z ∈ l, sq.fold (s'.elem z).pKey = k ∧ (s'.elem z).data = some d) ↔
      m k = some d := by
    rw [hm]
    refine exists_congr fun z ↦ and_congr_right fun hz ↦ ?_
    have hzx := ne_of_mem_of_not_mem hz hx
    rw [hadd.pKey z hzx, hadd.data z hzx]
  simp only [hl'.mem_iff, List.exists_mem_cons_iff, hold, hadd.pKey_self, hadd.data_self,
    Function.update_apply]
  by_cases hk : k = sq.fold pKey
  · rw [if_pos hk, hk, hnone]
    simp
  · rw [if_neg hk]
    exact ⟨.inr, fun h ↦ h.resolve_left fun hx ↦ hk hx.1.symm⟩

end Maps

namespace Stored

/-- The case of `sqlite3HashInsert` in which there is no element with the key. -/
theorem insert_new (hs : Stored sq s l) (hm : Maps sq s l m) (hlen : l.length + 1 < 2 ^ 31)
    (mem : Malloc ι) (data : Option δ) (hfind : l.find? (sameKey sq s pKey) = none) :
    ∃ s' l', addElement sq mem s pKey (keySlot sq s pKey) data =
        .ok (s', (mapStep sq m (.insert mem pKey data)).2) ∧
      Stored sq s' l' ∧ Maps sq s' l' (mapStep sq m (.insert mem pKey data)).1 ∧
      l'.length ≤ l.length + 1 ∧
      (mem.Unfailing → sq.mallocSoftLimit = 0 → l.length + 1 ≤ 2 ^ 25 → Roomy s → Roomy s') := by
  have hnone := find_none hm hfind
  cases data with
  | none =>
      refine ⟨s, l, ?_, hs, ?_, Nat.le_succ _, fun _ _ _ hroom ↦ hroom⟩
      · simp only [addElement, mapStep, hnone]
      · simpa only [mapStep, hnone] using hm
  | some d =>
      cases helem : mem.elem with
      | none =>
          refine ⟨s, l, ?_, hs, ?_, Nat.le_succ _, fun _ _ _ hroom ↦ hroom⟩
          · simp only [addElement, mapStep, hnone, helem]
          · simpa only [mapStep, hnone, helem] using hm
      | some place =>
          obtain ⟨s', l', x, hs', hstored, hx, hl', hadd, hroom⟩ :=
            hs.add d hlen helem (List.find?_eq_none.1 hfind)
          refine ⟨s', l', ?_, hstored, ?_, Nat.le_of_eq hl'.length_eq,
            fun hmem hlimit hfew _ ↦ hroom hmem hlimit hfew⟩
          · simp only [hs', mapStep, hnone, helem]
          · simpa only [mapStep, hnone, helem] using hm.add hadd hx hnone hl'

/-- The case in which there is one. -/
theorem insert_old (hs : Stored sq s l) (hm : Maps sq s l m) (hlen : l.length < 2 ^ 31)
    (mem : Malloc ι) (data : Option δ) (hfind : l.find? (sameKey sq s pKey) = some x) :
    ∃ s' l', replaceElement s x pKey (keySlot sq s pKey) data = .ok s' ∧
      Stored sq s' l' ∧ Maps sq s' l' (mapStep sq m (.insert mem pKey data)).1 ∧
      (mapStep sq m (.insert mem pKey data)).2 = m (sq.fold pKey) ∧
      l'.length ≤ l.length ∧ (Roomy s → Roomy s') := by
  obtain ⟨hx, hkey, hdata, hsome⟩ := hs.find_some hm hfind
  obtain ⟨old, hold⟩ := Option.isSome_iff_exists.1 (hdata ▸ hsome)
  have hsame := List.find?_some hfind
  have hideal : mapStep sq m (.insert mem pKey data) =
      (Function.update m (sq.fold pKey) data, some old) := by simp only [mapStep, hold]
  rw [hideal]
  cases data with
  | none =>
      obtain ⟨l₁, l₂, rfl⟩ := List.append_of_mem hx
      obtain ⟨s', hs', hstored, hdata', hpKey', hroom⟩ := hs.remove hlen hsame
      refine ⟨s', l₁ ++ l₂, hs', hstored, hm.erase hs hkey hdata' hpKey', hold.symm, ?_, hroom⟩
      rw [List.length_append, List.length_append, List.length_cons]
      omega
  | some d =>
      refine ⟨s.withEntry x pKey d, l, ?_, hs.replace hsame, hm.replace hs hx hkey, hold.symm,
        Nat.le_refl _, id⟩
      simp only [replaceElement, Hash.read_of_live (hs.live x hx), bind, Except.bind, pure,
        Except.pure]

/-- One call answers as the map does. -/
theorem step (hs : Stored sq s l) (hm : Maps sq s l m) (hlen : l.length + 1 < 2 ^ 31)
    (op : HashOp ι δ) :
    ∃ s' l', hashStep sq s op = .ok (s', (mapStep sq m op).2) ∧ Stored sq s' l' ∧
      Maps sq s' l' (mapStep sq m op).1 ∧ l'.length ≤ l.length + 1 ∧
      (op.Unfailing → sq.mallocSoftLimit = 0 → l.length + 1 ≤ 2 ^ 25 → Roomy s → Roomy s') := by
  cases op with
  | insert mem pKey data =>
      have hfound := findElementWithHash_spec hs.toArranged hs.count (by omega) pKey
      have helem := hs.elemData_find hm pKey
      cases hfind : l.find? (sameKey sq s pKey) with
      | none =>
          obtain ⟨s', l', hs', hstored, hm', hle, hroom⟩ := hs.insert_new hm hlen mem data hfind
          refine ⟨s', l', ?_, hstored, hm', hle, hroom⟩
          rw [hfind] at hfound helem
          simp only [hashStep, sqlite3HashInsert, hfound, helem, bind, Except.bind, hs']
      | some x =>
          obtain ⟨s', l', hs', hstored, hm', hold, hle, hroom⟩ :=
            hs.insert_old hm (by omega) mem data hfind
          obtain ⟨-, -, hdata, hsome⟩ := hs.find_some hm hfind
          obtain ⟨old, hmold⟩ := Option.isSome_iff_exists.1 (hdata ▸ hsome)
          refine ⟨s', l', ?_, hstored, hm', Nat.le_succ_of_le hle, fun _ _ _ ↦ hroom⟩
          rw [hfind, hmold] at helem
          rw [hfind] at hfound
          rw [hold, hmold]
          simp only [hashStep, sqlite3HashInsert, hfound, helem, bind, Except.bind, hs', pure,
            Except.pure]
  | find pKey =>
      refine ⟨s, l, ?_, hs, hm, Nat.le_succ _, fun _ _ _ hroom ↦ hroom⟩
      have hfound := findElementWithHash_spec hs.toArranged hs.count (by omega) pKey
      simp only [hashStep, sqlite3HashFind, hfound, hs.elemData_find hm pKey, bind, Except.bind,
        pure, Except.pure, mapStep]
  | clear =>
      refine ⟨sqlite3HashInit { s with live := [] }, [], ?_, init sq s, ?_, Nat.zero_le _,
        fun _ _ _ _ ↦ .inl (Nat.zero_lt_succ 9)⟩
      · simp only [hashStep, sqlite3HashClear_spec hs.toOnList hs.allocated, bind, Except.bind,
          pure, Except.pure, mapStep]
      · rw [mapStep]
        exact Maps.init

end Stored

/-- The loop over all elements: from `sqliteHashFirst` by `sqliteHashNext`. -/
def hashLoop (s : Hash ι δ) : ℕ → Option ι → Except Fault (List ι)
  | 0, _ => .error .fuel
  | _ + 1, none => .ok []
  | fuel + 1, some p => do
      let e ← s.read p
      return p :: (← hashLoop s fuel e.next)

theorem hashLoop_spec {p : Option ι} {fuel : ℕ} (hl : Chain (fun x ↦ (s.elem x).next) p l)
    (hlive : ∀ x ∈ l, x ∈ s.live) (hfuel : l.length < fuel) : hashLoop s fuel p = .ok l := by
  induction l generalizing p fuel with
  | nil =>
      obtain ⟨fuel, rfl⟩ : ∃ f, fuel = f + 1 := ⟨fuel - 1, by omega⟩
      obtain rfl : p = none := hl
      rfl
  | cons x l ih =>
      obtain ⟨fuel, rfl⟩ : ∃ f, fuel = f + 1 := ⟨fuel - 1, by omega⟩
      obtain ⟨rfl, hrest⟩ := hl
      rw [List.length_cons] at hfuel
      have hloop := ih hrest (fun z hz ↦ hlive z (List.mem_cons_of_mem x hz))
        (Nat.lt_of_succ_lt_succ hfuel)
      simp only [hashLoop, Hash.read_of_live (hlive x List.mem_cons_self), bind, Except.bind,
        hloop, pure, Except.pure]

theorem Stored.hashLoop_eq (hs : Stored sq s l) : hashLoop s (s.count + 1) s.first = .ok l :=
  hashLoop_spec (hs.first ▸ hs.threaded.chain) hs.live (by rw [hs.count]; exact Nat.lt_succ_self _)

/-- A run from a new table. -/
theorem hashTable_run (sq : Sqlite) (s₀ : Hash ι δ) {ops : List (HashOp ι δ)}
    (hlen : ops.length < 2 ^ 31) :
    ∃ s l, answers (hashStep sq) (sqlite3HashInit { s₀ with live := [] }) ops =
        .ok (s, (idealAnswers (mapStep sq) (fun _ ↦ none) ops).2) ∧
      Stored sq s l ∧ Maps sq s l (idealAnswers (mapStep sq) (fun _ ↦ none) ops).1 := by
  have hstep : ∀ n (s : Hash ι δ) m op, n < ops.length →
      (∃ l, Stored sq s l ∧ Maps sq s l m ∧ l.length ≤ n) → True →
      ∃ s', hashStep sq s op = .ok (s', (mapStep sq m op).2) ∧
        ∃ l', Stored sq s' l' ∧ Maps sq s' l' (mapStep sq m op).1 ∧ l'.length ≤ n + 1 := by
    rintro n s m op hn ⟨l, hs, hm, hle⟩ -
    obtain ⟨s', l', hs', hstored, hm', hle', -⟩ := hs.step hm (by omega) op
    exact ⟨s', hs', l', hstored, hm', by omega⟩
  obtain ⟨s, hs, l, hstored, hm, -⟩ := answers_of_step
    (fun n s m ↦ ∃ l, Stored sq s l ∧ Maps sq s l m ∧ l.length ≤ n) hstep
    (Nat.le_of_eq (Nat.zero_add _))
    ⟨[], Stored.init sq s₀, Maps.init, Nat.le_refl 0⟩
    (Allowed.of_forall _ fun _ _ _ ↦ trivial)
  exact ⟨s, l, hs, hstored, hm⟩

/-- Inserting, removing, looking up and clearing answers as a map does whose
keys are the strings without their case.  No call reads or frees an element
that is not allocated, leaves the buckets or fails an assertion, also where
the allocator refuses an element or new buckets. -/
theorem hashTable_answers_map (sq : Sqlite) (s₀ : Hash ι δ) (ops : List (HashOp ι δ))
    (hlen : ops.length < 2 ^ 31) :
    ∃ s, answers (hashStep sq) (sqlite3HashInit { s₀ with live := [] }) ops =
      .ok (s, (idealAnswers (mapStep sq) (fun _ ↦ none) ops).2) := by
  obtain ⟨s, l, hs, -⟩ := hashTable_run sq s₀ hlen
  exact ⟨s, hs⟩

section

omit [DecidableEq ι]

/-- `sqlite3StrICmp` on what comes before the NUL. -/
def strICmp (lower : UInt8 → UInt8) : List UInt8 → List UInt8 → ℤ
  | [], [] => 0
  | [], x :: _ => (lower 0).toNat - (lower x).toNat
  | c :: _, [] => (lower c).toNat - (lower 0).toNat
  | c :: a, x :: b =>
      if lower c = lower x then strICmp lower a b else (lower c).toNat - (lower x).toNat

/-- Upper case letters of ASCII. -/
def asciiLower (c : UInt8) : UInt8 :=
  if 65 ≤ c.toNat ∧ c.toNat ≤ 90 then UInt8.ofNat (c.toNat + 32) else c

theorem asciiLower_eq_zero {c : UInt8} (h : asciiLower c = 0) : c = 0 := by
  rw [asciiLower] at h
  split at h
  · have hnat := congrArg UInt8.toNat h
    simp at hnat
    omega
  · exact h

theorem strICmp_asciiLower {a b : List UInt8} (ha : ∀ c ∈ a, c ≠ 0) (hb : ∀ c ∈ b, c ≠ 0) :
    strICmp asciiLower a b = 0 ↔ a.map asciiLower = b.map asciiLower := by
  have hzero : (asciiLower 0).toNat = 0 := rfl
  have hpos {c : UInt8} (hc : c ≠ 0) : (asciiLower c).toNat ≠ 0 := fun h ↦
    hc (asciiLower_eq_zero (UInt8.toNat_inj.1 h))
  induction a generalizing b with
  | nil =>
      cases b with
      | nil => simp [strICmp]
      | cons x b =>
          have hx := hpos (hb x List.mem_cons_self)
          simp only [strICmp, hzero, List.map_nil, List.map_cons, List.nil_eq, reduceCtorEq,
            iff_false]
          omega
  | cons c a ih =>
      have hc := hpos (ha c List.mem_cons_self)
      cases b with
      | nil =>
          simp only [strICmp, hzero, List.map_nil, List.map_cons, reduceCtorEq, iff_false]
          omega
      | cons x b =>
          have hrest := ih (fun z hz ↦ ha z (List.mem_cons_of_mem c hz))
            (fun z hz ↦ hb z (List.mem_cons_of_mem x hz))
          rw [strICmp, List.map_cons, List.map_cons, List.cons.injEq]
          by_cases hcx : asciiLower c = asciiLower x
          · rw [if_pos hcx]
            simpa only [hcx, true_and] using hrest
          · have hne : (asciiLower c).toNat ≠ (asciiLower x).toNat := fun h ↦
              hcx (UInt8.toNat_inj.1 h)
            rw [if_neg hcx]
            simp only [hcx, false_and, iff_false]
            omega

def asciiSqlite : Sqlite where
  upperToLower := asciiLower
  strICmp a b := strICmp asciiLower (cstring a) (cstring b)
  mallocSoftLimit := 0
  strICmp_eq_zero a b := by
    apply strICmp_asciiLower
    · intro c hc
      simpa using List.mem_takeWhile_imp hc
    · intro c hc
      simpa using List.mem_takeWhile_imp hc

/-- An allocator that gives what it is asked for. -/
def exactMalloc : Malloc ℕ where
  elem := some ⟨fun used ↦ used.sum + 1, fun used h ↦ by
    exact absurd (List.le_sum_of_mem h) (Nat.not_succ_le_self used.sum)⟩
  size n := if 0 < n ∧ n < 2 ^ 31 then some n else none
  size_spec n k h := by
    split at h
    · obtain rfl := Option.some.inj h
      omega
    · cases h

end

/-- A key is found in another spelling, gets new data in a third one, and is
removed. -/
theorem hashTable_answers_map_case :
    ∃ s : Hash ℕ ℕ, answers (hashStep asciiSqlite)
      (sqlite3HashInit ⟨0, 0, none, none, fun _ ↦ ⟨none, none, none, []⟩, []⟩)
      [.insert exactMalloc [97, 98] (some 1), .find [65, 98], .insert exactMalloc [97, 66] (some 2),
        .insert exactMalloc [65, 66] none, .find [97, 98]] =
        .ok (s, [none, some 1, some 1, some 2, none]) := by
  obtain ⟨s, hs⟩ := hashTable_answers_map asciiSqlite
    (⟨0, 0, none, none, fun _ ↦ ⟨none, none, none, []⟩, []⟩ : Hash ℕ ℕ)
    [.insert exactMalloc [97, 98] (some 1), .find [65, 98], .insert exactMalloc [97, 66] (some 2),
      .insert exactMalloc [65, 66] none, .find [97, 98]] (by decide)
  exact ⟨s, hs⟩

/-- After any run the loop over the table visits each entry of the map once,
and every bucket is a block of this list: its elements are those whose hash
belongs there, `count` is their number and `chain` the first of them.  There are
`htsize` buckets, none where there is no array. -/
theorem hashTable_entries (sq : Sqlite) (s₀ : Hash ι δ) (ops : List (HashOp ι δ))
    (hlen : ops.length < 2 ^ 31) :
    ∃ s as l, answers (hashStep sq) (sqlite3HashInit { s₀ with live := [] }) ops = .ok (s, as) ∧
      hashLoop s (s.count + 1) s.first = .ok l ∧ l.length = s.count ∧
      (l.map fun x ↦ sq.fold (s.elem x).pKey).Nodup ∧
      (∀ k d, (idealAnswers (mapStep sq) (fun _ ↦ none) ops).1 k = some d ↔
        ∃ x ∈ l, sq.fold (s.elem x).pKey = k ∧ (s.elem x).data = some d) ∧
      (s.ht = none → s.htsize = 0) ∧
      ∀ bs, s.ht = some bs → bs.length = s.htsize ∧ ∀ h < s.htsize, ∃ b l₁ c l₂,
        bs[h]? = some b ∧ l = l₁ ++ c ++ l₂ ∧ b.count = c.length ∧
        (c ≠ [] → b.chain = c.head?) ∧
        ∀ x ∈ l, x ∈ c ↔ (strHash sq (s.elem x).pKey).toNat % s.htsize = h := by
  obtain ⟨s, l, hrun, hs, hm⟩ := hashTable_run sq s₀ hlen
  refine ⟨s, _, l, hrun, hs.hashLoop_eq, hs.count.symm, hs.keys, hm, hs.noTable,
    fun bs hbs ↦ ?_⟩
  have hb := hs.buckets bs hbs
  refine ⟨hb.size, fun h hh ↦ ?_⟩
  obtain ⟨b, hget, hcount, hchain⟩ := hb.bucket h hh
  obtain ⟨l₁, l₂, hl, -⟩ := hb.grouped.exists_block h
  refine ⟨b, l₁, _, l₂, hget, hl, hcount, fun hne ↦ hchain ?_, fun x hx ↦ ?_⟩
  · rw [hcount]
    exact fun hzero ↦ hne (List.length_eq_zero_iff.1 (Int.ofNat_eq_zero.1 hzero))
  · rw [List.mem_filter, decide_eq_true_eq]
    exact ⟨And.right, fun hslot ↦ ⟨hx, hslot⟩⟩

/-- The memory of a table before it is set up. -/
def zeroHash : Hash ℕ ℕ := ⟨0, 0, none, none, fun _ ↦ ⟨none, none, none, []⟩, []⟩

/-- Nine keys, the first of them in the other case, and a tenth, with which the
buckets are set up. -/
def elevenInserts : List (HashOp ℕ ℕ) :=
  (List.range 9).map (fun i ↦ .insert exactMalloc [97 + UInt8.ofNat i] (some i)) ++
    [.insert exactMalloc [65] (some 9), .insert exactMalloc [120] (some 10)]

theorem elevenInserts_sizes :
    (answers (hashStep asciiSqlite) (sqlite3HashInit { zeroHash with live := [] })
      elevenInserts).map (fun r ↦ (r.1.count, r.1.ht.map List.length)) = .ok (10, some 20) := by
  decide +kernel

/-- Ten entries in twenty buckets. -/
theorem hashTable_entries_buckets :
    ∃ (s : Hash ℕ ℕ) (as : List (Option ℕ)) (l : List ℕ) (bs : List (Ht ℕ)),
      answers (hashStep asciiSqlite) (sqlite3HashInit { zeroHash with live := [] })
        elevenInserts = .ok (s, as) ∧
      hashLoop s (s.count + 1) s.first = .ok l ∧ l.length = 10 ∧ s.ht = some bs ∧
      bs.length = 20 ∧ ∀ h < 20, ∃ (b : Ht ℕ) (l₁ c l₂ : List ℕ), bs[h]? = some b ∧
        l = l₁ ++ c ++ l₂ ∧ b.count = c.length := by
  obtain ⟨s, as, l, hs, hl, hcount, -, -, -, hbuckets⟩ :=
    hashTable_entries asciiSqlite zeroHash elevenInserts (by decide)
  have hsizes := elevenInserts_sizes
  rw [hs] at hsizes
  obtain ⟨hten, hht⟩ := Prod.mk.inj (Except.ok.inj hsizes)
  obtain ⟨bs, hbs, hlen⟩ := Option.map_eq_some_iff.1 hht
  obtain ⟨hsize, hblock⟩ := hbuckets bs hbs
  refine ⟨s, as, l, bs, hs, hl, hcount.trans hten, hbs, hlen, fun h hh ↦ ?_⟩
  obtain ⟨b, l₁, c, l₂, hget, hsplit, hb, -, -⟩ := hblock h (by omega)
  exact ⟨b, l₁, c, l₂, hget, hsplit, hb⟩

/-- The allocated elements are those on the list, and a table without entries
has returned all its memory: it is as it was initialised. -/
theorem hashTable_returns_memory (sq : Sqlite) (s₀ : Hash ι δ) (ops : List (HashOp ι δ))
    (hlen : ops.length < 2 ^ 31) :
    ∃ s as l, answers (hashStep sq) (sqlite3HashInit { s₀ with live := [] }) ops = .ok (s, as) ∧
      hashLoop s (s.count + 1) s.first = .ok l ∧ s.live.Perm l ∧
      ((∀ k, (idealAnswers (mapStep sq) (fun _ ↦ none) ops).1 k = none) →
        s = sqlite3HashInit { s with live := [] }) := by
  obtain ⟨s, l, hrun, hs, hm⟩ := hashTable_run sq s₀ hlen
  refine ⟨s, _, l, hrun, hs.hashLoop_eq, hs.allocated, fun hempty ↦ ?_⟩
  obtain rfl : l = [] := by
    rw [List.eq_nil_iff_forall_not_mem]
    intro x hx
    obtain ⟨d, hd⟩ := Option.isSome_iff_exists.1 (hs.data x hx)
    have hsome := (hm _ d).2 ⟨x, hx, rfl, hd⟩
    rw [hempty] at hsome
    cases hsome
  have hht := hs.empty rfl
  have hsize := hs.noTable hht
  have hfirst : s.first = none := hs.first
  have hcount : s.count = 0 := hs.count
  have hlive : s.live = [] := hs.allocated.eq_nil
  cases s
  simp_all [sqlite3HashInit]

/-- The only entry is removed again. -/
theorem hashTable_returns_memory_removed :
    ∃ (s : Hash ℕ ℕ) (as : List (Option ℕ)), answers (hashStep asciiSqlite)
      (sqlite3HashInit ⟨0, 0, none, none, fun _ ↦ ⟨none, none, none, []⟩, []⟩)
      [.insert exactMalloc [97] (some 1), .insert exactMalloc [65] none] = .ok (s, as) ∧
      s.live = [] ∧ s.ht = none := by
  obtain ⟨s, as, l, hs, -, -, hempty⟩ := hashTable_returns_memory asciiSqlite
    (⟨0, 0, none, none, fun _ ↦ ⟨none, none, none, []⟩, []⟩ : Hash ℕ ℕ)
    [.insert exactMalloc [97] (some 1), .insert exactMalloc [65] none] (by decide)
  have hnew := hempty fun k ↦ by
    have hfold : asciiSqlite.fold [97] = asciiSqlite.fold [65] := by decide
    simp [idealAnswers, mapStep, hfold, exactMalloc]
  refine ⟨s, as, hs, ?_, ?_⟩
  · rw [hnew]
    rfl
  · rw [hnew]
    rfl

/-- Where no new buckets are refused, the table keeps at least one for every
two entries, once it has ten. -/
theorem hashTable_load (sq : Sqlite) (s₀ : Hash ι δ) (ops : List (HashOp ι δ))
    (hlimit : sq.mallocSoftLimit = 0) (hmem : ∀ op ∈ ops, op.Unfailing)
    (hlen : ops.length ≤ 2 ^ 25) :
    ∃ s as, answers (hashStep sq) (sqlite3HashInit { s₀ with live := [] }) ops = .ok (s, as) ∧
      (s.count < 10 ∨ s.count ≤ 2 * s.htsize) := by
  have hstep : ∀ n (s : Hash ι δ) m op, n < ops.length →
      (∃ l, Stored sq s l ∧ Maps sq s l m ∧ l.length ≤ n ∧ Roomy s) → op.Unfailing →
      ∃ s', hashStep sq s op = .ok (s', (mapStep sq m op).2) ∧ ∃ l', Stored sq s' l' ∧
        Maps sq s' l' (mapStep sq m op).1 ∧ l'.length ≤ n + 1 ∧ Roomy s' := by
    rintro n s m op hn ⟨l, hs, hm, hle, hroom⟩ hop
    obtain ⟨s', l', hs', hstored, hm', hle', hroom'⟩ := hs.step hm (by omega) op
    exact ⟨s', hs', l', hstored, hm', by omega, hroom' hop hlimit (by omega) hroom⟩
  obtain ⟨s, hs, l, -, -, -, hroom⟩ := answers_of_step
    (fun n s m ↦ ∃ l, Stored sq s l ∧ Maps sq s l m ∧ l.length ≤ n ∧ Roomy s) hstep
    (Nat.le_of_eq (Nat.zero_add _))
    ⟨[], Stored.init sq s₀, Maps.init, Nat.le_refl 0, .inl (Nat.zero_lt_succ 9)⟩
    (Allowed.of_forall _ fun op hop _ ↦ hmem op hop)
  exact ⟨s, _, hs, hroom⟩

theorem exactMalloc_unfailing : exactMalloc.Unfailing := by
  intro n hpos hlt
  have hsize : exactMalloc.size n = some n := if_pos ⟨hpos, by omega⟩
  rw [hsize]
  rfl

theorem elevenInserts_unfailing : ∀ op ∈ elevenInserts, op.Unfailing := by
  intro op hop
  rcases List.mem_append.1 hop with hnine | hrest
  · obtain ⟨i, -, rfl⟩ := List.mem_map.1 hnine
    exact exactMalloc_unfailing
  · rcases List.mem_cons.1 hrest with rfl | hlast
    · exact exactMalloc_unfailing
    · obtain rfl := List.mem_singleton.1 hlast
      exact exactMalloc_unfailing

theorem hashTable_load_buckets :
    ∃ (s : Hash ℕ ℕ) (as : List (Option ℕ)), answers (hashStep asciiSqlite)
        (sqlite3HashInit { zeroHash with live := [] }) elevenInserts = .ok (s, as) ∧
      s.count = 10 ∧ s.count ≤ 2 * s.htsize := by
  obtain ⟨s, as, hs, hload⟩ := hashTable_load asciiSqlite zeroHash elevenInserts rfl
    elevenInserts_unfailing (by decide)
  have hsizes := elevenInserts_sizes
  rw [hs] at hsizes
  have hten : s.count = 10 := (Prod.mk.inj (Except.ok.inj hsizes)).1
  exact ⟨s, as, hs, hten, hload.resolve_left (by omega)⟩

end Cocool.HashTable
