import Cocool.Timer.Armed

/-!
# The timers as a client sees them

A client knows of each event when it is due, in microseconds, and in which
order the callbacks will come.  The event base answers all its calls from that.
-/

namespace Cocool.Timer

open Lib

/-! ## Microseconds -/

namespace Timeval

variable {w : ℕ} {t u : Timeval}

def micros (t : Timeval) : ℤ := t.tvSec * 1000000 + t.tvUsec

/-- The seconds can be represented, and the microseconds do not make up another
one. -/
structure Normal (w : ℕ) (t : Timeval) : Prop where
  sec : InSigned w t.tvSec
  nonneg : 0 ≤ t.tvUsec
  lt : t.tvUsec < 1000000

/-- What a clock reads. -/
structure Reading (w : ℕ) (t : Timeval) : Prop extends Normal w t where
  sec_nonneg : 0 ≤ t.tvSec

instance (w : ℕ) (t : Timeval) : Decidable (t.Normal w) :=
  decidable_of_iff (InSigned w t.tvSec ∧ 0 ≤ t.tvUsec ∧ t.tvUsec < 1000000)
    ⟨fun h ↦ ⟨h.1, h.2.1, h.2.2⟩, fun h ↦ ⟨h.sec, h.nonneg, h.lt⟩⟩

instance (w : ℕ) (t : Timeval) : Decidable (t.Reading w) :=
  decidable_of_iff (t.Normal w ∧ 0 ≤ t.tvSec) ⟨fun h ↦ ⟨h.1, h.2⟩, fun h ↦ ⟨h.toNormal, h.2⟩⟩

theorem micros_lt_iff (ht : t.Normal w) (hu : u.Normal w) : t.micros < u.micros ↔ t < u := by
  obtain ⟨-, ht0, ht⟩ := ht
  obtain ⟨-, hu0, hu⟩ := hu
  rw [lt_iff, micros, micros]
  omega

theorem micros_le_iff (ht : t.Normal w) (hu : u.Normal w) : t.micros ≤ u.micros ↔ t ≤ u := by
  rw [← not_lt, micros_lt_iff hu ht, not_lt]

theorem timeInt_eq {n : ℤ} (hn : InSigned w n) : timeInt w n = .ok n :=
  checkedSigned_of_inSigned hn

/-- The members have at least 32 bits, so what becomes of microseconds on the
way to a sum or a difference always fits. -/
theorem timeInt_usec {n : ℤ} (hw : 32 ≤ w) (hlo : -2000000 ≤ n) (hn : n < 2000000) :
    timeInt w n = .ok n := by
  have htwo : (2 : ℤ) ^ 31 ≤ 2 ^ (w - 1) := pow_le_pow_right₀ (by decide) (by omega)
  exact timeInt_eq ⟨by omega, by omega⟩

/-- The addition is exact where the sum can be represented. -/
theorem Reading.timeradd (hw : 32 ≤ w) (ht : t.Reading w) (hu : u.Normal w)
    (hfit : InSigned w ((t.micros + u.micros) / 1000000)) :
    ∃ v, evutilTimeradd w t u = .ok v ∧ v.Normal w ∧ v.micros = t.micros + u.micros := by
  obtain ⟨⟨htsec, ht0, ht⟩, htnonneg⟩ := ht
  obtain ⟨husec, hu0, hu⟩ := hu
  rw [micros, micros, InSigned] at hfit
  rw [InSigned] at htsec husec
  have hsec : timeInt w (t.tvSec + u.tvSec) = .ok (t.tvSec + u.tvSec) :=
    timeInt_eq ⟨by omega, by omega⟩
  have husec' : timeInt w (t.tvUsec + u.tvUsec) = .ok (t.tvUsec + u.tvUsec) :=
    timeInt_usec hw (by omega) (by omega)
  by_cases hcarry : t.tvUsec + u.tvUsec ≥ 1000000
  · have hsec' : timeInt w (t.tvSec + u.tvSec + 1) = .ok (t.tvSec + u.tvSec + 1) :=
      timeInt_eq ⟨by omega, by omega⟩
    have husec'' : timeInt w (t.tvUsec + u.tvUsec - 1000000) =
        .ok (t.tvUsec + u.tvUsec - 1000000) := timeInt_usec hw (by omega) (by omega)
    refine ⟨⟨t.tvSec + u.tvSec + 1, t.tvUsec + u.tvUsec - 1000000⟩, ?_,
      ⟨⟨?_, ?_⟩, ?_, ?_⟩, ?_⟩
    · simp only [evutilTimeradd, hsec, husec', hcarry, if_true, hsec', husec'', bind, Except.bind,
        pure, Except.pure]
    all_goals
      simp only [micros]
      omega
  · refine ⟨⟨t.tvSec + u.tvSec, t.tvUsec + u.tvUsec⟩, ?_, ⟨⟨?_, ?_⟩, ?_, ?_⟩, ?_⟩
    · simp only [evutilTimeradd, hsec, husec', hcarry, if_false, bind, Except.bind, pure,
        Except.pure]
    all_goals
      simp only [micros]
      omega

/-- A sum that cannot be represented overflows. -/
theorem Reading.timeradd_overflow (hw : 32 ≤ w) (ht : t.Reading w) (hu : u.Normal w)
    (hfit : ¬ InSigned w ((t.micros + u.micros) / 1000000)) :
    evutilTimeradd w t u = .error .overflow := by
  obtain ⟨⟨htsec, ht0, ht⟩, htnonneg⟩ := ht
  obtain ⟨husec, hu0, hu⟩ := hu
  rw [micros, micros] at hfit
  by_cases hsec : InSigned w (t.tvSec + u.tvSec)
  · have husec' : timeInt w (t.tvUsec + u.tvUsec) = .ok (t.tvUsec + u.tvUsec) :=
      timeInt_usec hw (by omega) (by omega)
    rw [InSigned] at hfit hsec
    have hcarry : t.tvUsec + u.tvUsec ≥ 1000000 := by omega
    have hsec' : timeInt w (t.tvSec + u.tvSec + 1) = .error .overflow :=
      if_neg fun h ↦ by rw [InSigned] at h; omega
    simp only [evutilTimeradd, timeInt_eq hsec, husec', hcarry, if_true, hsec', bind, Except.bind]
  · have hsec' : timeInt w (t.tvSec + u.tvSec) = .error .overflow := if_neg hsec
    simp only [evutilTimeradd, hsec', bind, Except.bind]

/-- The time to a later deadline can be represented. -/
theorem Normal.timersub (hw : 32 ≤ w) (ht : t.Normal w) (hu : u.Reading w) (hlt : u < t) :
    ∃ v, evutilTimersub w t u = .ok v ∧ v.Reading w ∧ v.micros = t.micros - u.micros := by
  have hlt' := (micros_lt_iff hu.toNormal ht).2 hlt
  obtain ⟨htsec, ht0, ht⟩ := ht
  obtain ⟨⟨husec, hu0, hu⟩, hunonneg⟩ := hu
  rw [micros, micros] at hlt'
  rw [InSigned] at htsec husec
  have hsec : timeInt w (t.tvSec - u.tvSec) = .ok (t.tvSec - u.tvSec) :=
    timeInt_eq ⟨by omega, by omega⟩
  have husec' : timeInt w (t.tvUsec - u.tvUsec) = .ok (t.tvUsec - u.tvUsec) :=
    timeInt_usec hw (by omega) (by omega)
  by_cases hborrow : t.tvUsec - u.tvUsec < 0
  · have hsec' : timeInt w (t.tvSec - u.tvSec - 1) = .ok (t.tvSec - u.tvSec - 1) :=
      timeInt_eq ⟨by omega, by omega⟩
    have husec'' : timeInt w (t.tvUsec - u.tvUsec + 1000000) =
        .ok (t.tvUsec - u.tvUsec + 1000000) := timeInt_usec hw (by omega) (by omega)
    refine ⟨⟨t.tvSec - u.tvSec - 1, t.tvUsec - u.tvUsec + 1000000⟩, ?_,
      ⟨⟨⟨?_, ?_⟩, ?_, ?_⟩, ?_⟩, ?_⟩
    · simp only [evutilTimersub, hsec, husec', hborrow, if_true, hsec', husec'', bind,
        Except.bind, pure, Except.pure]
    all_goals
      simp only [micros]
      omega
  · refine ⟨⟨t.tvSec - u.tvSec, t.tvUsec - u.tvUsec⟩, ?_, ⟨⟨⟨?_, ?_⟩, ?_, ?_⟩, ?_⟩, ?_⟩
    · simp only [evutilTimersub, hsec, husec', hborrow, if_false, bind, Except.bind, pure,
        Except.pure]
    all_goals
      simp only [micros]
      omega

end Timeval

/-! ## The timers of a client -/

/-- When each event is due, the events that wait for their callback, what each
callback is told, and how many events can be due without more memory. -/
structure Timers (ι : Type) where
  due : ι → Option ℤ
  ready : List ι
  res : ι → BitVec 16
  room : ℕ

/-- How many events have a deadline. -/
noncomputable def Timers.armed {ι : Type} (t : Timers ι) : ℕ := {x | t.due x ≠ none}.ncard

/-- The calls, with what the clock reads. -/
inductive TimerOp (ι : Type)
  | add (e : ι) (tv : Option Timeval) (tvIsAbsolute : Bool) (now : Timeval) (mem memPush : Bool)
  | del (e : ι)
  | active (e : ι) (res : BitVec 32)
  | process (now : Timeval)
  | head
  | next (now : Timeval)
  | done

inductive TimerAnswer (ι : Type)
  | unit
  | added (res : ℤ) (notify : Bool)
  | activated (notify : Bool)
  | call (callback : Option (ι × BitVec 16))
  | wait (tv : Option Timeval)
  | done (b : Bool)

variable {ι : Type} [DecidableEq ι] {base base' : EventBase ι} {t t' : Timers ι}
  {q : ι → Option Timeval} {n k w : ℕ} {e x : ι} {u v now tv : Timeval}

def timerStep (w : ℕ) (base : EventBase ι) : TimerOp ι → Except Fault (EventBase ι × TimerAnswer ι)
  | .add e tv tvIsAbsolute now mem memPush => do
      let (base, res, notify) ← eventAddNolock w base e tv tvIsAbsolute now mem memPush
      return (base, .added res notify)
  | .del e => do return (← eventDelNolock base e, .unit)
  | .active e res =>
      let (base, notify) := eventActiveNolock base e res
      .ok (base, .activated notify)
  | .process now => do return (← timeoutProcess base now, .unit)
  | .head => do
      let (base, callback) ← processActiveHead base
      return (base, .call callback)
  | .next now => do return (base, .wait (← timeoutNext w base now))
  | .done => .ok (base, .done (loopDone base))

omit [DecidableEq ι] in
/-- No event is due before `e`. -/
def FirstDue (due : ι → Option ℤ) (e : ι) (d : ℤ) : Prop :=
  due e = some d ∧ ∀ x c, due x = some c → d ≤ c

/-- What each call does to the timers.  A deadline that is not announced to the
loop is not the first one, and only a timer that finds no room can be refused. -/
inductive TimersServe : Timers ι → TimerOp ι → TimerAnswer ι → Timers ι → Prop
  | untimed {t e tvIsAbsolute now mem memPush} :
      TimersServe t (.add e none tvIsAbsolute now mem memPush) (.added 0 false) t
  | added {t : Timers ι} {e tv tvIsAbsolute now mem memPush notify} {due : ι → Option ℤ}
      (hdue : due = Function.update t.due e
        (some (if tvIsAbsolute then tv.micros else now.micros + tv.micros)))
      (hmem : t.due e = none → t.room ≤ t.armed → mem = true)
      (hnotify : notify = true →
        (∃ d, FirstDue due e d) ∨ ∃ x d, due x = some d ∧ d < now.micros)
      (hquiet : notify = false → ∃ x d, x ≠ e ∧ FirstDue due x d ∧ now.micros ≤ d) :
      TimersServe t (.add e (some tv) tvIsAbsolute now mem memPush) (.added 0 notify)
        ⟨due, waiting t.ready t.res e, t.res, roomFor t.room t.armed (t.due e).isSome⟩
  | refused {t : Timers ι} {e tv tvIsAbsolute now memPush} (he : t.due e = none)
      (hfull : t.room ≤ t.armed) :
      TimersServe t (.add e (some tv) tvIsAbsolute now false memPush) (.added (-1) false) t
  | deleted {t : Timers ι} {e} :
      TimersServe t (.del e) .unit
        ⟨Function.update t.due e none, t.ready.erase e, t.res, t.room⟩
  | extended {t : Timers ι} {e res} (he : e ∈ t.ready) :
      TimersServe t (.active e res) (.activated false)
        ⟨t.due, t.ready, Function.update t.res e (addRes (t.res e) res), t.room⟩
  | activated {t : Timers ι} {e res} (he : e ∉ t.ready) :
      TimersServe t (.active e res) (.activated true)
        ⟨t.due, t.ready ++ [e], Function.update t.res e (res.setWidth 16), t.room⟩
  /-- The events `l` are due. -/
  | processed {t : Timers ι} {now} (l : List ι) (hl : l.Nodup)
      (hmem : ∀ x, x ∈ l ↔ ∃ d, t.due x = some d ∧ d ≤ now.micros)
      (hord : l.Pairwise fun x y ↦ ∀ c d, t.due x = some c → t.due y = some d → c ≤ d) :
      TimersServe t (.process now) .unit ⟨fun x ↦ if x ∈ l then none else t.due x,
        t.ready.filter (· ∉ l) ++ l,
        fun x ↦ if x ∈ l then evTimeoutBit.setWidth 16 else t.res x, t.room⟩
  | idle {t : Timers ι} (hready : t.ready = []) : TimersServe t .head (.call none) t
  | called {t : Timers ι} {e rest} (hready : t.ready = e :: rest) :
      TimersServe t .head (.call (some (e, t.res e)))
        ⟨Function.update t.due e none, rest, t.res, t.room⟩
  | forever {t : Timers ι} {now} (hdue : ∀ x, t.due x = none) :
      TimersServe t (.next now) (.wait none) t
  | sleeps {t : Timers ι} {now tv e d} (hdue : FirstDue t.due e d)
      (hform : 0 ≤ tv.tvSec ∧ 0 ≤ tv.tvUsec ∧ tv.tvUsec < 1000000)
      (htv : tv.micros = max 0 (d - now.micros)) : TimersServe t (.next now) (.wait (some tv)) t
  | done {t : Timers ι} {b} (hb : b = true ↔ t.ready = [] ∧ ∀ x, t.due x = none) :
      TimersServe t .done (.done b) t

/-- The times of a call are well formed, and a deadline that it sets can be
represented. -/
def TimerOp.Normal (w : ℕ) : TimerOp ι → Prop
  | .add _ tv tvIsAbsolute now _ _ => now.Reading w ∧ ∀ u, tv = some u → u.Normal w ∧
      (tvIsAbsolute = false → InSigned w ((now.micros + u.micros) / 1000000))
  | .process now => now.Reading w
  | .next now => now.Reading w
  | _ => True

/-! ## Refinement -/

/-- The event base stands for the timers. -/
structure Tracks (w : ℕ) (base : EventBase ι) (n : ℕ) (q : ι → Option Timeval) (t : Timers ι) :
    Prop where
  shows : Shows base n t.room q t.ready t.res
  normal : ∀ x u, q x = some u → u.Normal w
  due : ∀ x, t.due x = (q x).map Timeval.micros

namespace Tracks

theorem due_update (ht : Tracks w base n q t) (e : ι) (o : Option Timeval) (x : ι) :
    Function.update t.due e (o.map Timeval.micros) x =
      (Function.update q e o x).map Timeval.micros := by
  by_cases hx : x = e
  · rw [hx, Function.update_self, Function.update_self]
  · rw [Function.update_of_ne hx, Function.update_of_ne hx, ht.due]

theorem normal_update (ht : Tracks w base n q t) {o : Option Timeval}
    (ho : ∀ u, o = some u → u.Normal w) (x : ι) (u : Timeval)
    (hx : Function.update q e o x = some u) : u.Normal w := by
  by_cases hxe : x = e
  · rw [hxe, Function.update_self] at hx
    exact ho u hx
  · rw [Function.update_of_ne hxe] at hx
    exact ht.normal x u hx

omit [DecidableEq ι]

theorem due_eq_none (ht : Tracks w base n q t) : t.due x = none ↔ q x = none := by
  rw [ht.due, Option.map_eq_none_iff]

theorem due_eq_some {d : ℤ} (ht : Tracks w base n q t) :
    t.due x = some d ↔ ∃ u, q x = some u ∧ u.micros = d := by
  rw [ht.due, Option.map_eq_some_iff]

theorem firstDue (ht : Tracks w base n q t) (he : q e = some u)
    (hle : ∀ x v, q x = some v → u ≤ v) : FirstDue t.due e u.micros := by
  refine ⟨ht.due_eq_some.2 ⟨u, he, rfl⟩, fun x c hx ↦ ?_⟩
  obtain ⟨v, hv, rfl⟩ := ht.due_eq_some.1 hx
  exact (Timeval.micros_le_iff (ht.normal e u he) (ht.normal x v hv)).2 (hle x v hv)

theorem armed (ht : Tracks w base n q t) : t.armed = n := by
  rw [Timers.armed, ← ht.shows.ncard]
  simp only [ne_eq, ht.due_eq_none]

theorem due_isSome (ht : Tracks w base n q t) (x : ι) : (t.due x).isSome = (q x).isSome := by
  rw [ht.due, Option.isSome_map]

theorem normal_deadline (hw : 32 ≤ w) {tvIsAbsolute : Bool} (hnow : now.Reading w)
    (htv : tv.Normal w)
    (hfit : tvIsAbsolute = false → InSigned w ((now.micros + tv.micros) / 1000000)) :
    ∃ u, deadline w tvIsAbsolute now tv = .ok u ∧ u.Normal w ∧
      u.micros = if tvIsAbsolute then tv.micros else now.micros + tv.micros := by
  cases tvIsAbsolute with
  | true => exact ⟨tv, rfl, htv, rfl⟩
  | false => exact hnow.timeradd hw htv (hfit rfl)

end Tracks

/-- The loop sleeps exactly until the first deadline. -/
theorem Tracks.next (hw : 32 ≤ w) (ht : Tracks w base n q t) (hnow : now.Reading w) :
    ∃ tv, timeoutNext w base now = .ok tv ∧ TimersServe t (.next now) (.wait tv) t := by
  rcases ht.shows.top with ⟨htop, -, hnone⟩ | ⟨e, u, htop, hu, hle, -⟩
  · refine ⟨none, ?_, .forever fun x ↦ ht.due_eq_none.2 (hnone x)⟩
    simp only [timeoutNext, htop, bind, Except.bind, pure, Except.pure]
  · have hfirst := ht.firstDue hu hle
    have hnormal := ht.normal e u hu
    have hev := ht.shows.evTimeout hu
    by_cases hpast : u ≤ now
    · refine ⟨some ⟨0, 0⟩, ?_, .sleeps hfirst (by decide) ?_⟩
      · simp only [timeoutNext, htop, bind, Except.bind, pure, Except.pure, evutilTimercmp_le, hev,
          hpast, decide_true, if_true]
      · rw [max_eq_left (sub_nonpos.2 ((Timeval.micros_le_iff hnormal hnow.toNormal).2 hpast))]
        rfl
    · obtain ⟨tv, htv, hform, hmicros⟩ := hnormal.timersub hw hnow (not_le.1 hpast)
      have hlt := (Timeval.micros_lt_iff hnow.toNormal hnormal).2 (not_le.1 hpast)
      -- the assertions of the source
      have hpos : tv.tvSec ≥ 0 ∧ tv.tvUsec ≥ 0 := ⟨hform.sec_nonneg, hform.nonneg⟩
      refine ⟨some tv, ?_, .sleeps hfirst ⟨hform.sec_nonneg, hform.nonneg, hform.lt⟩ ?_⟩
      · simp only [timeoutNext, htop, bind, Except.bind, pure, Except.pure, evutilTimercmp_le, hev,
          hpast, decide_false, Bool.false_eq_true, if_false, htv, hpos, and_self, if_true]
      · rw [hmicros, max_eq_right (sub_nonneg.2 hlt.le)]

theorem Tracks.add (hw : 32 ≤ w) (ht : Tracks w base n q t) (hlen : n + 1 < 2 ^ 31) (e : ι)
    {tvIsAbsolute : Bool} (hnow : now.Reading w) (htv : tv.Normal w)
    (hfit : tvIsAbsolute = false → InSigned w ((now.micros + tv.micros) / 1000000))
    (mem memPush : Bool) :
    ∃ base' res notify t' k q',
      eventAddNolock w base e (some tv) tvIsAbsolute now mem memPush = .ok (base', res, notify) ∧
      TimersServe t (.add e (some tv) tvIsAbsolute now mem memPush) (.added res notify) t' ∧
      k ≤ n + 1 ∧ t'.ready.length ≤ t.ready.length ∧ Tracks w base' k q' t' := by
  obtain ⟨u, hu, hnormal, hmicros⟩ := Tracks.normal_deadline hw hnow htv hfit
  rcases ht.shows.eventAdd hlen e tv tvIsAbsolute now hu mem memPush with
    ⟨base', k, notify, hbase', hk, hshows, hnotify, hmem⟩ | ⟨hmem, he, hfull, hfail⟩
  · rw [← ht.due_isSome] at hshows
    have ht' : Tracks w base' k (Function.update q e (some u))
        ⟨Function.update t.due e (some u.micros), waiting t.ready t.res e, t.res,
          roomFor t.room t.armed (t.due e).isSome⟩ :=
      ⟨ht.armed.symm ▸ hshows, ht.normal_update fun v hv ↦ Option.some.inj hv ▸ hnormal,
        ht.due_update e (some _)⟩
    obtain ⟨b, hb, htrue, hfalse⟩ := hshows.needsNotify (Function.update_self e _ q) now
    obtain rfl : notify = b := Except.ok.inj (hnotify.symm.trans hb)
    refine ⟨base', 0, notify, _, k, _, hbase', .added (by rw [hmicros]) (fun hnone hfull ↦ ?_)
      (fun h ↦ ?_) (fun h ↦ ?_), hk, waiting_length_le t.ready t.res e, ht'⟩
    · exact hmem (ht.due_eq_none.1 hnone) (ht.armed ▸ hfull)
    · rcases htrue h with ⟨v, hv, hle⟩ | ⟨x, v, hx, hv⟩
      · exact .inl ⟨_, ht'.firstDue hv hle⟩
      · exact .inr ⟨x, v.micros, ht'.due_eq_some.2 ⟨v, hx, rfl⟩,
          (Timeval.micros_lt_iff (ht'.normal x v hx) hnow.toNormal).2 hv⟩
    · obtain ⟨x, v, hxe, ⟨v', hv', hle⟩, hv, hnowv⟩ := hfalse h
      obtain rfl := Option.some.inj (hv'.symm.trans hv)
      exact ⟨x, v'.micros, hxe, ht'.firstDue hv' hle,
        (Timeval.micros_le_iff hnow.toNormal (ht'.normal x v' hv')).2 hnowv⟩
  · rw [hmem] at hfail ⊢
    exact ⟨base, -1, false, t, n, q, hfail,
      .refused (ht.due_eq_none.2 he) (ht.armed.symm ▸ hfull), Nat.le_succ n, le_rfl, ht⟩

/-- A deadline that cannot be represented overflows, if there is room for it. -/
theorem Tracks.add_overflow (hw : 32 ≤ w) (ht : Tracks w base n q t) (hlen : n + 1 < 2 ^ 32)
    (e : ι) (hnow : now.Reading w) (htv : tv.Normal w)
    (hfit : ¬ InSigned w ((now.micros + tv.micros) / 1000000)) (mem memPush : Bool) :
    timerStep w base (.add e (some tv) false now mem memPush) = .error .overflow ∨
      (t.due e = none ∧ t.room ≤ t.armed ∧ mem = false) := by
  have hu : deadline w false now tv = .error .overflow := hnow.timeradd_overflow hw htv hfit
  rcases ht.shows.eventAdd_overflow hlen e hu mem memPush with hadd | ⟨hmem, he, hfull⟩
  · left
    simp only [timerStep, hadd, bind, Except.bind]
  · exact .inr ⟨ht.due_eq_none.2 he, ht.armed.symm ▸ hfull, hmem⟩

theorem Tracks.process (ht : Tracks w base n q t) (hnow : now.Reading w) :
    ∃ base' t' k q', timeoutProcess base now = .ok base' ∧
      TimersServe t (.process now) .unit t' ∧
      k + t'.ready.length ≤ n + t.ready.length ∧ k ≤ n ∧ Tracks w base' k q' t' := by
  obtain ⟨base', k, d, hbase', hk, hshows, hd, hmem, hord⟩ := ht.shows.timeoutProcess now
  have ht' : Tracks w base' k (fun x ↦ if x ∈ d then none else q x)
      ⟨fun x ↦ if x ∈ d then none else t.due x, t.ready.filter (· ∉ d) ++ d,
        fun x ↦ if x ∈ d then evTimeoutBit.setWidth 16 else t.res x, t.room⟩ := by
    refine ⟨hshows, fun x u hx ↦ ?_, fun x ↦ ?_⟩
    · by_cases hxd : x ∈ d
      · rw [if_pos hxd] at hx
        cases hx
      · rw [if_neg hxd] at hx
        exact ht.normal x u hx
    · dsimp only
      by_cases hxd : x ∈ d
      · rw [if_pos hxd, if_pos hxd]
        rfl
      · rw [if_neg hxd, if_neg hxd, ht.due]
  refine ⟨base', _, k, _, hbase', .processed d hd (fun x ↦ (hmem x).trans ?_) ?_, ?_, by omega, ht'⟩
  · constructor
    · rintro ⟨u, hu, hle⟩
      exact ⟨_, ht.due_eq_some.2 ⟨u, hu, rfl⟩,
        (Timeval.micros_le_iff (ht.normal x u hu) hnow.toNormal).2 hle⟩
    · rintro ⟨c, hc, hle⟩
      obtain ⟨u, hu, rfl⟩ := ht.due_eq_some.1 hc
      exact ⟨u, hu, (Timeval.micros_le_iff (ht.normal x u hu) hnow.toNormal).1 hle⟩
  · refine hord.imp fun {x y} hxy c c' hc hc' ↦ ?_
    obtain ⟨u, hu, rfl⟩ := ht.due_eq_some.1 hc
    obtain ⟨v, hv, rfl⟩ := ht.due_eq_some.1 hc'
    exact (Timeval.micros_le_iff (ht.normal x u hu) (ht.normal y v hv)).2 (hxy u v hu hv)
  · have hfilter := List.length_filter_le (fun x ↦ decide (x ∉ d)) t.ready
    rw [List.length_append]
    omega

/-- The base without `e`. -/
theorem Tracks.disarm {l : List ι} (ht : Tracks w base n q t)
    (hshows : Shows base' k t.room (Function.update q e none) l t.res) :
    Tracks w base' k (Function.update q e none)
      ⟨Function.update t.due e none, l, t.res, t.room⟩ :=
  ⟨hshows, ht.normal_update fun _ hu ↦ absurd hu.symm (Option.some_ne_none _),
    ht.due_update e none⟩

/-- Every call is answered as by the timers. -/
theorem Tracks.step (hw : 32 ≤ w) (ht : Tracks w base n q t)
    (hlen : n + t.ready.length + 1 < 2 ^ 31) (op : TimerOp ι) (hop : op.Normal w) :
    ∃ base' ans t' k q', timerStep w base op = .ok (base', ans) ∧ TimersServe t op ans t' ∧
      k + t'.ready.length ≤ n + t.ready.length + 1 ∧ Tracks w base' k q' t' := by
  have hstay : n + t.ready.length ≤ n + t.ready.length + 1 := Nat.le_succ _
  cases op with
  | add e tv tvIsAbsolute now mem memPush =>
      cases tv with
      | none => exact ⟨base, .added 0 false, t, n, q, rfl, .untimed, hstay, ht⟩
      | some tv =>
          obtain ⟨base', res, notify, t', k, q', hbase', hserves, hk, hready, ht'⟩ :=
            ht.add hw (by omega) e hop.1 (hop.2 tv rfl).1 (hop.2 tv rfl).2 mem memPush
          refine ⟨base', .added res notify, t', k, q', ?_, hserves, by omega, ht'⟩
          simp only [timerStep, hbase', bind, Except.bind, pure, Except.pure]
  | del e =>
      obtain ⟨base', k, hbase', hshows, hk, -⟩ := ht.shows.eventDel e
      have herase : (t.ready.erase e).length ≤ t.ready.length := List.length_erase_le
      refine ⟨base', .unit, _, k, _, ?_, .deleted, ?_, ht.disarm hshows⟩
      · simp only [timerStep, hbase', bind, Except.bind, pure, Except.pure]
      · dsimp only
        omega
  | active e res =>
      obtain ⟨hin, hout⟩ := ht.shows.eventActive e res
      by_cases he : e ∈ t.ready
      · obtain ⟨hnotify, hshows⟩ := hin he
        exact ⟨_, .activated false, _, n, q, by rw [timerStep, ← hnotify],
          .extended he, hstay, hshows, ht.normal, ht.due⟩
      · obtain ⟨hnotify, hshows⟩ := hout he
        refine ⟨_, .activated true, _, n, q, by rw [timerStep, ← hnotify],
          .activated he, ?_, hshows, ht.normal, ht.due⟩
        rw [List.length_append, List.length_singleton, ← Nat.add_assoc]
  | process now =>
      obtain ⟨base', t', k, q', hbase', hserves, hk, -, ht'⟩ := ht.process hop
      refine ⟨base', .unit, t', k, q', ?_, hserves, by omega, ht'⟩
      simp only [timerStep, hbase', bind, Except.bind, pure, Except.pure]
  | head =>
      rcases ht.shows.processActiveHead with
        ⟨hnil, hhead⟩ | ⟨e, rest, base', k, hcons, hhead, hk, hshows⟩
      · refine ⟨base, .call none, t, n, q, ?_, .idle hnil, hstay, ht⟩
        simp only [timerStep, hhead, bind, Except.bind, pure, Except.pure]
      · refine ⟨base', .call (some (e, t.res e)), _, k, _, ?_, .called hcons, ?_,
          ht.disarm hshows⟩
        · simp only [timerStep, hhead, bind, Except.bind, pure, Except.pure]
        · rw [hcons, List.length_cons]
          dsimp only
          omega
  | next now =>
      obtain ⟨tv, htv, hwait⟩ := ht.next hw hop
      refine ⟨base, .wait tv, t, n, q, ?_, hwait, hstay, ht⟩
      simp only [timerStep, htv, bind, Except.bind, pure, Except.pure]
  | done =>
      refine ⟨base, .done (loopDone base), t, n, q, rfl, .done (ht.shows.loopDone.trans ?_),
        hstay, ht⟩
      rw [ht.shows.empty_iff]
      simp only [ht.due_eq_none]

omit [DecidableEq ι] in
/-- A new event base. -/
def newBase (events : ι → Event) : EventBase ι where
  timeheap := minHeapCtor ⟨fun _ ↦ none, 0, 0, events⟩
  activequeue := []
  virtualEventCount := 0
  eventCount := 0
  eventCountMax := 0
  eventCountActive := 0
  eventCountActiveMax := 0

omit [DecidableEq ι] in
/-- The event is on no queue, as `event_assign` leaves it. -/
def Event.Idle (ev : Event) : Prop := ev.minHeapIdx = -1 ∧ ev.timeout = false ∧ ev.active = false

omit [DecidableEq ι] in
/-- The timers of a new base. -/
def newTimers (events : ι → Event) : Timers ι :=
  ⟨fun _ ↦ none, [], fun x ↦ (events x).evRes, 0⟩

omit [DecidableEq ι] in
theorem tracks_newBase [Inhabited ι] {events : ι → Event} (h : ∀ x, (events x).Idle) (w : ℕ) :
    Tracks w (newBase events) 0 (fun _ ↦ none) (newTimers events) := by
  refine ⟨⟨⟨fun _ ↦ default, Queue.ctor ⟨fun _ ↦ none, 0, 0, events⟩ (fun x ↦ (h x).1) _⟩, rfl,
    rfl, funext fun x ↦ if_pos (h x).1, fun x ↦ (h x).2.1, fun x ↦ ?_, rfl, .nil, fun _ ↦ rfl, rfl,
    rfl, rfl⟩, fun x u hu ↦ absurd hu.symm (Option.some_ne_none u), fun _ ↦ rfl⟩
  have hactive : ((newBase events).ev x).active = false := (h x).2.2
  simp [hactive, newTimers]

/-- A run from a base that stands for the timers `t`. -/
theorem Tracks.run (hw : 32 ≤ w) (ht : Tracks w base n q t) (ops : List (TimerOp ι))
    (hlen : n + t.ready.length + ops.length < 2 ^ 31) (hops : ∀ op ∈ ops, op.Normal w) :
    ∃ base' as t' k q', answers (timerStep w) base ops = .ok (base', as) ∧
      Follows TimersServe t ops as t' ∧
      k + t'.ready.length ≤ n + t.ready.length + ops.length ∧ Tracks w base' k q' t' := by
  have hstep : ∀ m (base : EventBase ι) t' op, m < n + t.ready.length + ops.length →
      (∃ k q, k + t'.ready.length ≤ m ∧ Tracks w base k q t') → op.Normal w →
      ∃ base' ans t'', timerStep w base op = .ok (base', ans) ∧ TimersServe t' op ans t'' ∧
        ∃ k q, k + t''.ready.length ≤ m + 1 ∧ Tracks w base' k q t'' := by
    rintro m base t' op hm ⟨k, q, hk, ht'⟩ hop
    obtain ⟨base', ans, t'', k', q', hbase', hserves, hk', ht''⟩ := ht'.step hw (by omega) op hop
    exact ⟨base', ans, t'', hbase', hserves, k', q', by omega, ht''⟩
  obtain ⟨base', as, t', hbase', hfollows, k, q', hk, ht'⟩ := answers_follow
    (fun m (base : EventBase ι) t' ↦ ∃ k q, k + t'.ready.length ≤ m ∧ Tracks w base k q t')
    hstep le_rfl ⟨n, q, le_rfl, ht⟩ hops
  exact ⟨base', as, t', k, q', hbase', hfollows, hk, ht'⟩

/-- A run from a new base. -/
theorem tracks_run [Inhabited ι] {events : ι → Event} (hw : 32 ≤ w) (ops : List (TimerOp ι))
    (hidle : ∀ x, (events x).Idle) (hops : ∀ op ∈ ops, op.Normal w)
    (hlen : ops.length < 2 ^ 31) :
    ∃ base as t n q, answers (timerStep w) (newBase events) ops = .ok (base, as) ∧
      Follows TimersServe (newTimers events) ops as t ∧ n + t.ready.length ≤ ops.length ∧
      Tracks w base n q t := by
  have hrun := (tracks_newBase hidle w).run hw ops
  rw [show (newTimers events).ready.length = 0 from rfl, Nat.add_zero, Nat.zero_add] at hrun
  exact hrun hlen hops

/-- The calls on an event base with timers are answered as the timers demand:
no call ends in `event_errx`, in a failed assertion, outside of the heap or in an
overflow; the events that are due are run in the order of their deadlines; the
loop sleeps exactly until the first deadline, and ends only when nothing is left.
In the end the flags of the events and the counters say what is armed and what
waits, and no counter is above the number of the calls; a further timer whose
deadline the type cannot hold would overflow. -/
theorem timers_serve [Inhabited ι] (events : ι → Event) (hw : 32 ≤ w) (ops : List (TimerOp ι))
    (hidle : ∀ x, (events x).Idle) (hops : ∀ op ∈ ops, op.Normal w)
    (hlen : ops.length < 2 ^ 31) :
    ∃ base as t, answers (timerStep w) (newBase events) ops = .ok (base, as) ∧
      Follows TimersServe (newTimers events) ops as t ∧
      (∀ x, t.due x = if (base.ev x).timeout then some (base.ev x).evTimeout.micros else none) ∧
      (∀ x, (base.ev x).active = true ↔ x ∈ t.ready) ∧
      base.activequeue = t.ready ∧ t.ready.Nodup ∧ (∀ x, t.res x = (base.ev x).evRes) ∧
      base.timeheap.n = t.armed ∧ base.timeheap.a = t.room ∧
      base.eventCount = base.timeheap.n + t.ready.length ∧
      base.eventCountActive = t.ready.length ∧ base.eventCount ≤ ops.length ∧
      ∀ (e : ι) (tv now : Timeval) (mem memPush : Bool), now.Reading w → tv.Normal w →
        ¬ InSigned w ((now.micros + tv.micros) / 1000000) →
        timerStep w base (.add e (some tv) false now mem memPush) = .error .overflow ∨
          (t.due e = none ∧ t.room ≤ t.armed ∧ mem = false) := by
  obtain ⟨base, as, t, n, q, hbase, hfollows, hn, ht⟩ :=
    tracks_run hw ops hidle hops hlen
  have hs := ht.shows
  refine ⟨base, as, t, hbase, hfollows, fun x ↦ ?_, hs.active, hs.activequeue, hs.nodup,
    fun x ↦ (hs.evRes x).symm, hs.size.trans ht.armed.symm, hs.room, hs.size.symm ▸ hs.count,
    hs.countActive, ?_, fun e tv now mem memPush hnow htv hfit ↦
      ht.add_overflow hw (by omega) e hnow htv hfit mem memPush⟩
  · rw [ht.due, hs.timeout]
    cases hx : q x with
    | none => rfl
    | some u => rw [hs.evTimeout hx]; rfl
  · rw [hs.count]
    exact_mod_cast hn

/-- A timer is set and runs out, another one is taken back, and a third would be
due after the end of time. -/
theorem timers_serve_two :
    ∃ base as t, answers (timerStep 32) (newBase fun _ : ℕ ↦ ⟨⟨0, 0⟩, -1, false, false, 0⟩)
        [.add 1 (some ⟨3, 500000⟩) false ⟨10, 600000⟩ true false,
          .add 2 (some ⟨5, 0⟩) false ⟨10, 600000⟩ true true, .next ⟨11, 0⟩,
          .process ⟨14, 100000⟩, .del 2, .head, .done] = .ok (base, as) ∧
      Follows TimersServe (newTimers fun _ : ℕ ↦ ⟨⟨0, 0⟩, -1, false, false, 0⟩)
        [.add 1 (some ⟨3, 500000⟩) false ⟨10, 600000⟩ true false,
          .add 2 (some ⟨5, 0⟩) false ⟨10, 600000⟩ true true, .next ⟨11, 0⟩,
          .process ⟨14, 100000⟩, .del 2, .head, .done] as t ∧
      timerStep 32 base (.add 3 (some ⟨2147483647, 0⟩) false ⟨14, 200000⟩ true true) =
        .error .overflow := by
  obtain ⟨base, as, t, hbase, hfollows, -, -, -, -, -, -, -, -, -, -, hlate⟩ :=
    timers_serve (w := 32)
    (fun _ : ℕ ↦ ⟨⟨0, 0⟩, -1, false, false, 0⟩) (by decide)
    [.add 1 (some ⟨3, 500000⟩) false ⟨10, 600000⟩ true false,
      .add 2 (some ⟨5, 0⟩) false ⟨10, 600000⟩ true true, .next ⟨11, 0⟩,
      .process ⟨14, 100000⟩, .del 2, .head, .done]
    (fun _ ↦ ⟨rfl, rfl, rfl⟩) (by simp [TimerOp.Normal]; decide) (by decide)
  refine ⟨base, as, t, hbase, hfollows, ?_⟩
  exact (hlate 3 ⟨2147483647, 0⟩ ⟨14, 200000⟩ true true (by decide) (by decide)
    (by decide)).resolve_right fun h ↦ Bool.noConfusion h.2.2

end Cocool.Timer
