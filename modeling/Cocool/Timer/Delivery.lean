import Cocool.Timer.Loop

/-!
# Wakeups and deliveries

The loop sleeps while other threads set and delete timers, and it must not
sleep past a deadline.  When it runs a callback for a timeout, the timeout must
have been asked for, and must not have been taken back.
-/

namespace Cocool.Timer

open Lib

variable {ι : Type} [DecidableEq ι] {base : EventBase ι} {t t' : Timers ι} {e x : ι} {d : ℤ}
  {w : ℕ} {op : TimerOp ι} {ans : TimerAnswer ι} {h : List (TimerOp ι × TimerAnswer ι)}
  {r : ι → BitVec 16}

/-! ## Wakeups -/

/-- The calls that other threads make while the loop sleeps. -/
def TimerOp.FromOutside : TimerOp ι → Prop
  | .add .. => True
  | .del _ => True
  | .active .. => True
  | _ => False

/-- The call wakes the loop up. -/
def TimerAnswer.notified : TimerAnswer ι → Bool
  | .added _ notify => notify
  | .activated notify => notify
  | _ => false

/-- Nothing is due or waits in `t'` earlier than in `t`. -/
structure NoSooner (t t' : Timers ι) : Prop where
  due : ∀ x d, t'.due x = some d → ∃ y c, t.due y = some c ∧ c ≤ d
  ready : ∀ x ∈ t'.ready, x ∈ t.ready

namespace NoSooner

omit [DecidableEq ι]

theorem refl (t : Timers ι) : NoSooner t t :=
  ⟨fun x d hx ↦ ⟨x, d, hx, le_rfl⟩, fun _ hx ↦ hx⟩

theorem trans {t₁ t₂ t₃ : Timers ι} (h : NoSooner t₁ t₂) (h' : NoSooner t₂ t₃) :
    NoSooner t₁ t₃ := by
  refine ⟨fun x d hx ↦ ?_, fun x hx ↦ h.ready x (h'.ready x hx)⟩
  obtain ⟨y, c, hy, hc⟩ := h'.due x d hx
  obtain ⟨z, b, hz, hb⟩ := h.due y c hy
  exact ⟨z, b, hz, hb.trans hc⟩

end NoSooner

theorem waiting_subset {l : List ι} (hx : x ∈ waiting l r e) : x ∈ l := by
  rw [waiting] at hx
  split at hx
  · exact List.mem_of_mem_erase hx
  · exact hx

/-- A call that does not wake the loop up leaves it time to sleep. -/
theorem TimersServe.noSooner (hs : TimersServe t op ans t') (hop : op.FromOutside)
    (hans : ans.notified = false) : NoSooner t t' := by
  cases hs with
  | untimed => exact .refl t
  | added hdue hmem hnotify hquiet =>
      obtain ⟨x, d, hxe, ⟨hx, hle⟩, -⟩ := hquiet hans
      refine ⟨fun y c hy ↦ ⟨x, d, ?_, hle y c hy⟩, fun y hy ↦ waiting_subset hy⟩
      rwa [hdue, Function.update_of_ne hxe] at hx
  | refused he hfull => exact .refl t
  | @deleted e =>
      refine ⟨fun x d hx ↦ ?_, fun x hx ↦ List.mem_of_mem_erase hx⟩
      by_cases hxe : x = e
      · simp only [hxe, Function.update_self] at hx
        cases hx
      · simp only [Function.update_of_ne hxe] at hx
        exact ⟨x, d, hx, le_rfl⟩
  | extended he => exact ⟨fun x d hx ↦ ⟨x, d, hx, le_rfl⟩, fun x hx ↦ hx⟩
  | activated he => cases hans
  | processed l hl hmem hord => exact hop.elim
  | idle hready => exact hop.elim
  | called hready => exact hop.elim
  | forever hdue => exact hop.elim
  | sleeps hdue hform htv => exact hop.elim
  | done hb => exact hop.elim

theorem noSooner_of_follows {ops : List (TimerOp ι)} {as : List (TimerAnswer ι)}
    (hs : Follows TimersServe t ops as t') (hops : ∀ op ∈ ops, op.FromOutside)
    (has : ∀ ans ∈ as, ans.notified = false) : NoSooner t t' := by
  have hstep : ∀ (u : Timers ι) (h : List (TimerOp ι × TimerAnswer ι)) op ans u',
      ((∀ p ∈ h, p.2.notified = false) → NoSooner t u) → TimersServe u op ans u' →
      op.FromOutside → (∀ p ∈ h ++ [(op, ans)], p.2.notified = false) → NoSooner t u' := by
    intro u h op ans u' hu hserves hop hquiet
    have hold := hu fun p hp ↦ hquiet p (List.mem_append_left _ hp)
    exact hold.trans (hserves.noSooner hop
      (hquiet (op, ans) (List.mem_append_right h (List.mem_singleton_self _))))
  have hrun := hs.history hstep (h := []) (fun _ ↦ .refl t) hops
  exact hrun fun p hp ↦ has p.2 (List.of_mem_zip hp).2

/-- While the loop sleeps and is not woken up, no timer comes to be due before
it wakes up by itself, and no callback comes to wait. -/
theorem timers_wake [Inhabited ι] (events : ι → Event) (hw : 32 ≤ w)
    (ops ops' : List (TimerOp ι)) (now : Timeval) (hidle : ∀ x, (events x).Idle)
    (hops : ∀ op ∈ ops, op.Normal w) (hnow : now.Reading w)
    (hops' : ∀ op ∈ ops', op.Normal w ∧ op.FromOutside)
    (hlen : ops.length + ops'.length < 2 ^ 31) :
    ∃ base as wait base' as', answers (timerStep w) (newBase events) ops = .ok (base, as) ∧
      timeoutNext w base now = .ok wait ∧ answers (timerStep w) base ops' = .ok (base', as') ∧
      ((∀ ans ∈ as', ans.notified = false) →
        (∀ x, (base'.ev x).timeout = true → ∃ tv, wait = some tv ∧
          (tv.micros = 0 ∨ now.micros + tv.micros ≤ (base'.ev x).evTimeout.micros)) ∧
        ∀ x, (base'.ev x).active = true → (base.ev x).active = true) := by
  obtain ⟨base, as, t, n, q, hbase, -, hn, ht⟩ :=
    tracks_run hw ops hidle hops (by omega)
  obtain ⟨wait, hnext, hwait⟩ := ht.next hw hnow
  obtain ⟨base', as', t', n', q', hbase', hfollows, -, ht'⟩ :=
    ht.run hw ops' (by omega) fun op hop ↦ (hops' op hop).1
  refine ⟨base, as, wait, base', as', hbase, hnext, hbase', fun hquiet ↦ ?_⟩
  have hsooner := noSooner_of_follows hfollows (fun op hop ↦ (hops' op hop).2) hquiet
  refine ⟨fun x hx ↦ ?_, fun x hx ↦ (ht.shows.active x).2
    (hsooner.ready x ((ht'.shows.active x).1 hx))⟩
  obtain ⟨u, hu⟩ := Option.isSome_iff_exists.1 ((ht'.shows.timeout x).symm.trans hx)
  obtain ⟨y, c, hy, hc⟩ := hsooner.due x u.micros (ht'.due_eq_some.2 ⟨u, hu, rfl⟩)
  rw [ht'.shows.evTimeout hu]
  cases hwait with
  | forever hdue =>
      rw [hdue y] at hy
      cases hy
  | @sleeps _ tv e d hdue hform htv =>
      refine ⟨tv, rfl, ?_⟩
      have hle := hdue.2 y c hy
      omega

/-- The loop sleeps for nine seconds, and a later timer is set meanwhile. -/
theorem timers_wake_later :
    ∃ base as base' as',
      answers (timerStep 64) (newBase fun _ : ℕ ↦ ⟨⟨0, 0⟩, -1, false, false, 0⟩)
        [.add 1 (some ⟨9, 0⟩) false ⟨10, 0⟩ true true] = .ok (base, as) ∧
      timeoutNext 64 base ⟨10, 0⟩ = .ok (some ⟨9, 0⟩) ∧
      answers (timerStep 64) base [.add 2 (some ⟨12, 0⟩) false ⟨11, 0⟩ true true, .del 3] =
        .ok (base', as') ∧
      ∀ x, (base'.ev x).timeout = true → 19000000 ≤ (base'.ev x).evTimeout.micros := by
  obtain ⟨base, as, wait, base', as', hbase, hnext, hbase', hquiet⟩ := timers_wake (w := 64)
    (fun _ : ℕ ↦ ⟨⟨0, 0⟩, -1, false, false, 0⟩) (by decide)
    [.add 1 (some ⟨9, 0⟩) false ⟨10, 0⟩ true true]
    [.add 2 (some ⟨12, 0⟩) false ⟨11, 0⟩ true true, .del 3] ⟨10, 0⟩ (fun _ ↦ ⟨rfl, rfl, rfl⟩)
    (by simp [TimerOp.Normal]; decide) (by decide)
    (by simp [TimerOp.Normal, TimerOp.FromOutside]; decide) (by decide)
  have hsleep : (answers (timerStep 64) (newBase fun _ : ℕ ↦ ⟨⟨0, 0⟩, -1, false, false, 0⟩)
      [.add 1 (some ⟨9, 0⟩) false ⟨10, 0⟩ true true]).bind (timeoutNext 64 ·.1 ⟨10, 0⟩) =
        .ok (some ⟨9, 0⟩) := rfl
  have hnotified : ((answers (timerStep 64) (newBase fun _ : ℕ ↦ ⟨⟨0, 0⟩, -1, false, false, 0⟩)
      [.add 1 (some ⟨9, 0⟩) false ⟨10, 0⟩ true true]).bind fun r ↦
        (answers (timerStep 64) r.1 [.add 2 (some ⟨12, 0⟩) false ⟨11, 0⟩ true true, .del 3]).map
          (·.2.map TimerAnswer.notified)) = .ok [false, false] := rfl
  rw [hbase, Except.bind, hnext] at hsleep
  rw [hbase, Except.bind, hbase', Except.map] at hnotified
  obtain rfl := Except.ok.inj hsleep
  refine ⟨base, as, base', as', hbase, hnext, hbase', fun x hx ↦ ?_⟩
  have hmem : ∀ ans ∈ as', ans.notified = false := by
    intro ans hans
    have hin := List.mem_map_of_mem (f := TimerAnswer.notified) hans
    rw [Except.ok.inj hnotified] at hin
    simpa using hin
  obtain ⟨tv, htv, hzero | hle⟩ := (hquiet hmem).1 x hx
  · obtain rfl := Option.some.inj htv
    cases hzero
  · obtain rfl := Option.some.inj htv
    exact hle

/-! ## Deliveries -/

/-- The call sets the timer of `e` to `d`. -/
def Sets (e : ι) (d : ℤ) : TimerOp ι × TimerAnswer ι → Prop
  | (.add e' (some tv) tvIsAbsolute now _ _, .added res _) => e' = e ∧ res = 0 ∧
      d = if tvIsAbsolute then tv.micros else now.micros + tv.micros
  | _ => False

/-- After the call the timeout that was set before for `e` is void: it was set
anew, taken back or delivered. -/
def Ends (e : ι) : TimerOp ι × TimerAnswer ι → Prop
  | (.add e' (some _) _ _ _ _, .added res _) => e' = e ∧ res = 0
  | (.del e', _) => e' = e
  | (.head, .call (some (e', _))) => e' = e
  | _ => False

/-- The last call for the timer of `e` set it to `d`. -/
def Stands (h : List (TimerOp ι × TimerAnswer ι)) (e : ι) (d : ℤ) : Prop :=
  ∃ h₁ p h₂, h = h₁ ++ p :: h₂ ∧ Sets e d p ∧ ∀ p' ∈ h₂, ¬ Ends e p'

/-- The last call for the timer of `e` set it, and the time came since. -/
def Fired (h : List (TimerOp ι × TimerAnswer ι)) (e : ι) : Prop :=
  ∃ d h₁ p h₂, h = h₁ ++ p :: h₂ ∧ Sets e d p ∧ (∀ p' ∈ h₂, ¬ Ends e p') ∧
    ∃ now ans, (.process now, ans) ∈ h₂ ∧ d ≤ now.micros

section

omit [DecidableEq ι]

variable {p : TimerOp ι × TimerAnswer ι} {now : Timeval}

theorem forall_mem_snoc {P : TimerOp ι × TimerAnswer ι → Prop} (hh : ∀ p ∈ h, P p) (hp : P p) :
    ∀ p' ∈ h ++ [p], P p' := by
  intro p' hp'
  rcases List.mem_append.1 hp' with hold | hnew
  · exact hh p' hold
  · exact List.mem_singleton.1 hnew ▸ hp

theorem Stands.last (hp : Sets e d p) : Stands (h ++ [p]) e d :=
  ⟨h, p, [], rfl, hp, fun _ hp' ↦ absurd hp' List.not_mem_nil⟩

theorem Stands.snoc (hs : Stands h e d) (hp : ¬ Ends e p) : Stands (h ++ [p]) e d := by
  obtain ⟨h₁, p', h₂, rfl, hset, hends⟩ := hs
  exact ⟨h₁, p', h₂ ++ [p], by rw [List.append_assoc, List.cons_append], hset,
    forall_mem_snoc hends hp⟩

theorem Stands.fire (hs : Stands h e d) (hd : d ≤ now.micros) (ans : TimerAnswer ι) :
    Fired (h ++ [(.process now, ans)]) e := by
  obtain ⟨h₁, p', h₂, rfl, hset, hends⟩ := hs
  exact ⟨d, h₁, p', h₂ ++ [(.process now, ans)], by rw [List.append_assoc, List.cons_append], hset,
    forall_mem_snoc hends id, now, ans, List.mem_append_right h₂ (List.mem_singleton_self _), hd⟩

theorem Fired.snoc (hs : Fired h e) (hp : ¬ Ends e p) : Fired (h ++ [p]) e := by
  obtain ⟨d, h₁, p', h₂, rfl, hset, hends, now, ans, hmem, hd⟩ := hs
  exact ⟨d, h₁, p', h₂ ++ [p], by rw [List.append_assoc, List.cons_append], hset,
    forall_mem_snoc hends hp, now, ans, List.mem_append_left [p] hmem, hd⟩

end

/-- The timers are as the calls so far have made them. -/
structure Accounts (t : Timers ι) (h : List (TimerOp ι × TimerAnswer ι)) : Prop where
  due : ∀ x d, t.due x = some d → Stands h x d
  ready : ∀ x ∈ t.ready, hasTimeout (t.res x) → Fired h x
  nodup : t.ready.Nodup

/-- Nobody else tells an event that its timeout has come. -/
def TimerOp.NoTimeout : TimerOp ι → Prop
  | .active _ res => hasTimeout (res.setWidth 16) = false
  | _ => True

omit [DecidableEq ι] in
/-- A call that voids no timeout and sets none. -/
theorem Accounts.snoc {p : TimerOp ι × TimerAnswer ι} (ha : Accounts t h)
    (hp : ∀ x, ¬ Ends x p) : Accounts t (h ++ [p]) :=
  ⟨fun x d hx ↦ (ha.due x d hx).snoc (hp x), fun x hx hres ↦ (ha.ready x hx hres).snoc (hp x),
    ha.nodup⟩

theorem waiting_nodup {l : List ι} (hl : l.Nodup) : (waiting l r e).Nodup := by
  rw [waiting]
  split
  · exact hl.erase e
  · exact hl

theorem ne_of_mem_waiting {l : List ι} (hl : l.Nodup) (hx : x ∈ waiting l r e)
    (hres : hasTimeout (r x)) : x ≠ e := by
  rintro rfl
  rw [waiting, if_pos hres] at hx
  exact hl.not_mem_erase hx

theorem Accounts.step (ha : Accounts t h) (hs : TimersServe t op ans t') (hop : op.NoTimeout) :
    Accounts t' (h ++ [(op, ans)]) := by
  cases hs with
  | untimed => exact ha.snoc fun _ ↦ id
  | @added e tv tvIsAbsolute now mem memPush notify due hdue hmem hnotify hquiet =>
      refine ⟨fun x d hx ↦ ?_, fun x hx hres ↦ ?_, waiting_nodup ha.nodup⟩
      · by_cases hxe : x = e
        · simp only [hdue, hxe, Function.update_self, Option.some.injEq] at hx
          exact hxe ▸ Stands.last ⟨rfl, rfl, hx.symm⟩
        · simp only [hdue, Function.update_of_ne hxe] at hx
          exact (ha.due x d hx).snoc fun hend ↦ hxe hend.1.symm
      · have hxe := ne_of_mem_waiting ha.nodup hx hres
        exact (ha.ready x (waiting_subset hx) hres).snoc fun hend ↦ hxe hend.1.symm
  | refused he hfull => exact ha.snoc fun _ hend ↦ absurd hend.2 (by decide)
  | @deleted e =>
      refine ⟨fun x d hx ↦ ?_, fun x hx hres ↦ ?_, ha.nodup.erase e⟩
      · by_cases hxe : x = e
        · simp only [hxe, Function.update_self] at hx
          cases hx
        · simp only [Function.update_of_ne hxe] at hx
          exact (ha.due x d hx).snoc fun hend ↦ hxe hend.symm
      · obtain ⟨hxe, hmem⟩ := ha.nodup.mem_erase_iff.1 hx
        exact (ha.ready x hmem hres).snoc fun hend ↦ hxe hend.symm
  | @extended e res he =>
      refine ⟨fun x d hx ↦ (ha.due x d hx).snoc id, fun x hx hres ↦ ?_, ha.nodup⟩
      refine (ha.ready x hx ?_).snoc id
      by_cases hxe : x = e
      · have hnone : hasTimeout (res.setWidth 16) = false := hop
        simp only [hxe, Function.update_self, hasTimeout_addRes, hnone, Bool.or_false] at hres
        rwa [hxe]
      · simpa only [Function.update_of_ne hxe] using hres
  | @activated e res he =>
      refine ⟨fun x d hx ↦ (ha.due x d hx).snoc id, fun x hx hres ↦ ?_, ?_⟩
      · by_cases hxe : x = e
        · simp only [hxe, Function.update_self] at hres
          exact absurd (hres.symm.trans hop) (by decide)
        · simp only [Function.update_of_ne hxe] at hres
          have hmem : x ∈ t.ready :=
            (List.mem_append.1 hx).resolve_right fun h ↦ hxe (List.mem_singleton.1 h)
          exact (ha.ready x hmem hres).snoc id
      · exact ha.nodup.append (List.nodup_singleton e) (List.disjoint_singleton.2 he)
  | @processed now l hl hmem hord =>
      refine ⟨fun x d hx ↦ ?_, fun x hx hres ↦ ?_, ?_⟩
      · by_cases hxl : x ∈ l
        · simp only [hxl, if_true] at hx
          cases hx
        · simp only [hxl, if_false] at hx
          exact (ha.due x d hx).snoc id
      · by_cases hxl : x ∈ l
        · obtain ⟨d, hd, hle⟩ := (hmem x).1 hxl
          exact (ha.due x d hd).fire hle _
        · simp only [hxl, if_false] at hres
          rcases List.mem_append.1 hx with hold | hnew
          · exact (ha.ready x (List.mem_of_mem_filter hold) hres).snoc id
          · exact absurd hnew hxl
      · refine (ha.nodup.filter _).append hl fun x hx hxl ↦ ?_
        exact of_decide_eq_true (List.mem_filter.1 hx).2 hxl
  | idle hready => exact ha.snoc fun _ ↦ id
  | @called e rest hready =>
      have hnodup := ha.nodup
      rw [hready, List.nodup_cons] at hnodup
      refine ⟨fun x d hx ↦ ?_, fun x hx hres ↦ ?_, hnodup.2⟩
      · by_cases hxe : x = e
        · simp only [hxe, Function.update_self] at hx
          cases hx
        · simp only [Function.update_of_ne hxe] at hx
          exact (ha.due x d hx).snoc fun hend ↦ hxe hend.symm
      · have hxe : x ≠ e := fun h ↦ hnodup.1 (h ▸ hx)
        exact (ha.ready x (hready ▸ List.mem_cons_of_mem e hx) hres).snoc fun hend ↦ hxe hend.symm
  | forever hdue => exact ha.snoc fun _ ↦ id
  | sleeps hdue hform htv => exact ha.snoc fun _ ↦ id
  | done hb => exact ha.snoc fun _ ↦ id

/-- If the next callback is called for a timeout, the last call for this timer
set it, and its time came: a timeout is not delivered early, not after it was
taken back or set anew, and not twice. -/
theorem timers_fire [Inhabited ι] (events : ι → Event) (ops : List (TimerOp ι))
    (hw : 32 ≤ w) (hidle : ∀ x, (events x).Idle)
    (hops : ∀ op ∈ ops, op.Normal w ∧ op.NoTimeout) (hlen : ops.length < 2 ^ 31) :
    ∃ base as base' callback, answers (timerStep w) (newBase events) ops = .ok (base, as) ∧
      processActiveHead base = .ok (base', callback) ∧
      ∀ e res, callback = some (e, res) → hasTimeout res → Fired (ops.zip as) e := by
  obtain ⟨base, as, t, n, q, hbase, hfollows, -, ht⟩ :=
    tracks_run hw ops hidle (fun op hop ↦ (hops op hop).1) hlen
  have hstart : Accounts (newTimers events) [] :=
    ⟨fun x d hx ↦ absurd hx.symm (Option.some_ne_none d),
      fun _ hx ↦ absurd hx List.not_mem_nil, .nil⟩
  have hend := hfollows.history (fun t h op ans t' ha hs hop ↦ Accounts.step ha hs hop) hstart
    fun op hop ↦ (hops op hop).2
  rcases ht.shows.processActiveHead with ⟨-, hhead⟩ | ⟨e, rest, base', -, hcons, hhead, -, -⟩
  · exact ⟨base, as, base, none, hbase, hhead, fun e res hcall ↦ by cases hcall⟩
  · refine ⟨base, as, base', _, hbase, hhead, fun e' res hcall hres ↦ ?_⟩
    obtain ⟨rfl, rfl⟩ := Prod.mk.inj (Option.some.inj hcall)
    exact hend.ready e (hcons ▸ List.mem_cons_self) hres

/-- A timer runs out, is set again before its callback, and runs out again. -/
theorem timers_fire_second :
    ∃ base as base',
      answers (timerStep 64) (newBase fun _ : ℕ ↦ ⟨⟨0, 0⟩, -1, false, false, 0⟩)
        [.add 1 (some ⟨1, 0⟩) false ⟨10, 0⟩ true true, .process ⟨12, 0⟩,
          .add 1 (some ⟨5, 0⟩) false ⟨12, 0⟩ true true, .process ⟨20, 0⟩] = .ok (base, as) ∧
      processActiveHead base = .ok (base', some (1, 1)) ∧
      Fired (List.zip [.add 1 (some ⟨1, 0⟩) false ⟨10, 0⟩ true true, .process ⟨12, 0⟩,
          .add 1 (some ⟨5, 0⟩) false ⟨12, 0⟩ true true, .process ⟨20, 0⟩] as) 1 := by
  obtain ⟨base, as, base', callback, hbase, hhead, hfired⟩ := timers_fire (w := 64)
    (fun _ : ℕ ↦ ⟨⟨0, 0⟩, -1, false, false, 0⟩)
    [.add 1 (some ⟨1, 0⟩) false ⟨10, 0⟩ true true, .process ⟨12, 0⟩,
      .add 1 (some ⟨5, 0⟩) false ⟨12, 0⟩ true true, .process ⟨20, 0⟩]
    (by decide) (fun _ ↦ ⟨rfl, rfl, rfl⟩)
    (by simp [TimerOp.Normal, TimerOp.NoTimeout]; decide) (by decide)
  have hcall : (answers (timerStep 64) (newBase fun _ : ℕ ↦ ⟨⟨0, 0⟩, -1, false, false, 0⟩)
      [.add 1 (some ⟨1, 0⟩) false ⟨10, 0⟩ true true, .process ⟨12, 0⟩,
        .add 1 (some ⟨5, 0⟩) false ⟨12, 0⟩ true true, .process ⟨20, 0⟩]).bind
          (fun r ↦ (processActiveHead r.1).map (·.2)) = .ok (some (1, 1)) := rfl
  rw [hbase, Except.bind, hhead, Except.map] at hcall
  obtain rfl := Except.ok.inj hcall
  exact ⟨base, as, base', hbase, hhead, hfired 1 1 rfl (by decide)⟩

end Cocool.Timer
