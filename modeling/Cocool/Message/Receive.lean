import Cocool.Message.Arena

/-!
# Received bytes

`ms_process` reads behind the bytes it has, up to the length of the buffer.
Where the buffer is comes from `ms_thread_process_init`; its length and the
write index are left as the block was found.
-/

namespace Cocool.Message

open Lib

variable {ι : Type*} [DecidableEq ι]

/-- The bytes that `read` delivered. -/
def Outcome.received (out : Outcome) : List UInt8 := (List.range out.ilen.toNat).map out.bytes

/-- The bus with all bytes read from one connection so far. -/
structure Receiving (ι : Type*) where
  bus : Bus ι
  received : List UInt8

namespace Receiving

/-- The length that `ms_process` asks for, which `read` takes as unsigned. -/
def asked (x : ι) (s : Receiving ι) : ℤ :=
  ((s.bus.item x).ibufflen - (s.bus.item x).iwriteIdx) % 2 ^ 64

def readDispatch (x : ι) (s : Receiving ι) (out : Outcome) : Receiving ι :=
  ⟨dispatchItem (s.bus.setItem x { s.bus.item x with istatus := statusProcess }) x out,
    s.received ++ out.received⟩

def step (x : ι) (s : Receiving ι) (out : Outcome) : Except Fault (Receiving ι) :=
  .ok (s.readDispatch x out)

def Delivered (x : ι) (s : Receiving ι) (out : Outcome) : Prop :=
  1 ≤ out.ilen ∧ out.ilen ≤ s.asked x

/-- The read goes to the unused tail of the buffer of `len` bytes at `own`. -/
structure InTail (own len : ℤ) (x : ι) (s : Receiving ι) : Prop where
  iwriteIdx : 0 ≤ (s.bus.item x).iwriteIdx ∧ (s.bus.item x).iwriteIdx ≤ (s.bus.item x).ibufflen
  ibufflen : (s.bus.item x).ibufflen ≤ len
  start : own + (s.bus.item x).iwriteIdx ≤ (s.bus.item x).pdatabuf + (s.bus.item x).iwriteIdx
  stop : (s.bus.item x).pdatabuf + (s.bus.item x).ibufflen ≤ own + len

/-- The first `n` bytes of the buffer. -/
def held (x : ι) (s : Receiving ι) (n : ℤ) : List UInt8 :=
  (List.range n.toNat).map fun j : ℕ ↦ s.bus.mem ((s.bus.item x).pdatabuf + j)

/-- Up to the write index the buffer holds what was read. -/
def Stored (x : ι) (s : Receiving ι) : Prop :=
  s.held x (s.bus.item x).iwriteIdx = s.received

def Kept (own len : ℤ) (x : ι) (s : Receiving ι) (out : Outcome) : Prop :=
  s.InTail own len x ∧ (s.readDispatch x out).Stored x

/-- Before each read the bounds hold, and after it nothing is lost. -/
def Accumulates (own len : ℤ) (x : ι) (s : Receiving ι) (reads : List Outcome) : Prop :=
  EachStep (step x) (Kept own len x) s reads

/-- The fields, which nothing sets, and the bytes of the buffer already are
what they should be after the read. -/
def Recorded (own len : ℤ) (x : ι) (s : Receiving ι) (out : Outcome) : Prop :=
  s.InTail own len x ∧ (s.bus.item x).iwriteIdx = out.ilen ∧ s.held x out.ilen = out.received

/-! ## One read -/

variable {x : ι} {s : Receiving ι} {out : Outcome}

theorem received_length (out : Outcome) : out.received.length = out.ilen.toNat := by
  simp [Outcome.received]

omit [DecidableEq ι] in
theorem held_length (x : ι) (s : Receiving ι) (n : ℤ) : (s.held x n).length = n.toNat := by
  simp [held]

/-- A read that delivers something writes the bytes and no field. -/
theorem readDispatch_of_pos (h : 0 < out.ilen) :
    ((s.readDispatch x out).bus.item x).pdatabuf = (s.bus.item x).pdatabuf ∧
    ((s.readDispatch x out).bus.item x).ibufflen = (s.bus.item x).ibufflen ∧
    ((s.readDispatch x out).bus.item x).iwriteIdx = (s.bus.item x).iwriteIdx ∧
    (s.readDispatch x out).bus.mem =
      (s.bus.readInto ((s.bus.item x).pdatabuf + (s.bus.item x).iwriteIdx) out).mem := by
  have hprocess := Bus.dispatchItem_process out (s.bus.setItem_istatus x statusProcess)
  have hpos : ¬out.ilen ≤ 0 := Int.not_le.mpr h
  simp only [readDispatch, hprocess, msProcess, if_neg hpos, Bus.freeOnError]
  split_ifs <;> simp [Bus.itemFree, Bus.readInto, Bus.setItem]

/-- The bytes up to the write index are not written. -/
theorem readDispatch_held (h : 0 < out.ilen) :
    (s.readDispatch x out).held x (s.bus.item x).iwriteIdx =
      s.held x (s.bus.item x).iwriteIdx := by
  obtain ⟨hdata, -, -, hmem⟩ := readDispatch_of_pos (x := x) (s := s) h
  apply List.map_congr_left
  intro j hj
  have hlt := List.mem_range.mp hj
  rw [hdata, hmem]
  exact if_neg fun hin ↦ by omega

/-- The write index stays, so that a read is recorded only if it had the
right value before. -/
theorem stored_iff (h : 0 < out.ilen) :
    (s.readDispatch x out).Stored x ↔
      s.held x (s.bus.item x).iwriteIdx = s.received ++ out.received := by
  obtain ⟨-, -, hidx, -⟩ := readDispatch_of_pos (x := x) (s := s) h
  rw [Stored, hidx, readDispatch_held h]
  rfl

theorem accumulates_iff_recorded (own len : ℤ) {reads : List Outcome} (hempty : s.received = [])
    (hreads : EachStep (step x) (Delivered x) s reads) :
    s.Accumulates own len x reads ↔
      reads = [] ∨ ∃ out, reads = [out] ∧ s.Recorded own len x out := by
  cases reads with
  | nil => exact ⟨fun _ ↦ .inl rfl, fun _ ↦ trivial⟩
  | cons out rest =>
      obtain ⟨⟨hlen, -⟩, hrest⟩ := hreads
      have hpos : 0 < out.ilen := hlen
      have hkept : s.Kept own len x out ↔ s.Recorded own len x out := by
        rw [Kept, Recorded, stored_iff hpos, hempty, List.nil_append]
        constructor
        · rintro ⟨htail, hheld⟩
          have hlength := congrArg List.length hheld
          rw [held_length, received_length] at hlength
          have hidx : (s.bus.item x).iwriteIdx = out.ilen := by
            have hnonneg := htail.iwriteIdx.1
            omega
          exact ⟨htail, hidx, hidx ▸ hheld⟩
        · rintro ⟨htail, hidx, hheld⟩
          exact ⟨htail, hidx ▸ hheld⟩
      constructor
      · rintro ⟨hfirst, hmore⟩
        right
        cases rest with
        | nil => exact ⟨out, rfl, hkept.mp hfirst⟩
        | cons out' rest =>
            exfalso
            obtain ⟨⟨hlen', -⟩, -⟩ := hrest _ rfl
            have hstored := (hmore _ rfl).1.2
            have hpos' : 0 < out'.ilen := hlen'
            rw [stored_iff hpos'] at hstored
            have hlength := congrArg List.length hstored
            obtain ⟨-, -, hidx, -⟩ := readDispatch_of_pos (x := x) (s := s) hpos
            have hidx' := (hkept.mp hfirst).2.1
            rw [held_length, hidx, hidx', List.length_append, received_length] at hlength
            simp only [readDispatch, hempty, List.nil_append, received_length] at hlength
            omega
      · rintro (hnil | ⟨out', hone, hrec⟩)
        · cases hnil
        · obtain ⟨rfl, rfl⟩ := List.cons.inj hone
          exact ⟨hkept.mpr hrec, fun _ _ ↦ trivial⟩

end Receiving

/-! ## Buffers of the arena -/

/-- No callback moves a buffer or sets its length. -/
def SameBuffers (s t : Bus ι) : Prop :=
  ∀ x, (t.item x).pdatabuf = (s.item x).pdatabuf ∧ (t.item x).ibufflen = (s.item x).ibufflen

namespace SameBuffers

variable {s t : Bus ι} {x : ι}

omit [DecidableEq ι] in
theorem refl (s : Bus ι) : SameBuffers s s := fun _ ↦ ⟨rfl, rfl⟩

omit [DecidableEq ι] in
theorem trans {u : Bus ι} (h : SameBuffers s t) (h' : SameBuffers t u) : SameBuffers s u :=
  fun x ↦ ⟨(h' x).1.trans (h x).1, (h' x).2.trans (h x).2⟩

theorem setItem {item : Item} (h : SameBuffers s t)
    (hitem : item.pdatabuf = (t.item x).pdatabuf ∧ item.ibufflen = (t.item x).ibufflen) :
    SameBuffers s (t.setItem x item) := by
  intro y
  by_cases hyx : y = x
  · subst hyx
    simp only [Bus.setItem, Function.update_self, hitem]
    exact h y
  · simp only [Bus.setItem, Function.update_of_ne hyx]
    exact h y

theorem dispatchClosed (x : ι) (s : Bus ι) : DispatchClosed x (SameBuffers s) where
  setItem _ _ h hdata hlen := h.setItem ⟨hdata, hlen⟩
  sockOpen _ h := h
  soketPending _ _ h := h
  timePending _ _ h := h
  readInto _ _ _ h := h
  itemFree _ h := h

end SameBuffers

theorem sameBuffers_dispatchItem (s : Bus ι) (x : ι) (out : Outcome) :
    SameBuffers s (dispatchItem s x out) :=
  (SameBuffers.dispatchClosed x s).dispatchItem (SameBuffers.refl s) out

theorem sameBuffers_msHandler {msCommond : ℤ} {s t : Bus ι} {x : ι} {fd : ℤ} {ievent : ℕ}
    {out : Outcome} (h : msHandler msCommond s fd ievent x out = .ok t) : SameBuffers s t := by
  rcases msHandler_ok h with ⟨-, rfl⟩ | ⟨-, rfl⟩
  · have hstatus : SameBuffers s (s.setItem x { s.item x with istatus := msCommond }) :=
      (SameBuffers.refl s).setItem ⟨rfl, rfl⟩
    exact hstatus.trans (sameBuffers_dispatchItem _ x out)
  · exact SameBuffers.refl t

theorem sameBuffers_step {msCommond : ℤ} {s t : Bus ι} {callback : Callback ι}
    (h : s.step msCommond callback = .ok t) : SameBuffers s t := by
  cases Bus.stepCase h with
  | accept fd written x lists => exact (SameBuffers.refl s).setItem ⟨rfl, rfl⟩
  | notify => exact SameBuffers.refl s
  | socket x ievent out t hx h => exact sameBuffers_msHandler h.choose_spec
  | timer x ievent out t hx h => exact sameBuffers_msHandler h.choose_spec

theorem sameBuffers_run {msCommond : ℤ} {s t : Bus ι} {callbacks : List (Callback ι)}
    (h : run (Bus.step msCommond) s callbacks = .ok t) : SameBuffers s t := by
  apply Always.last (P := SameBuffers s) ?_ h
  exact always_of_step (fun _ _ _ hu hv ↦ hu.trans (sameBuffers_step hv)) (SameBuffers.refl s) _

/-- Where a run finds the buffers that `ms_thread_process_init` handed out:
below the places that were meant. -/
theorem pdatabuf_lt {arena : Arena} (hfits : arena.Fits) (hbase : arena.base ≠ 0)
    {m : ℕ → UInt8} {s t : Bus (Fin arena.quensNum)} {msCommond : ℤ}
    {callbacks : List (Callback (Fin arena.quensNum))}
    (h : run (Bus.step msCommond) (arena.bus (arena.msThreadProcessInit ⟨m, []⟩) s) callbacks =
      .ok t) {i : Fin arena.quensNum} (hi : (i : ℕ) + 1 < arena.quensNum) :
    (t.item i).pdatabuf < arena.base + arena.buffOffset i := by
  have hle := arena.pdatabuf_le hfits ⟨m, []⟩ hi
  have hsame := (sameBuffers_run h i).1
  have hbus : ((arena.bus (arena.msThreadProcessInit ⟨m, []⟩) s).item i).pdatabuf =
      (arena.pdatabuf (arena.msThreadProcessInit ⟨m, []⟩).1 i : ℤ) := rfl
  rw [hsame, hbus]
  omega

/-- Received bytes accumulate only where nothing is read, or one read whose
result the uninitialised fields and memory describe already.  With the
pointers of `ms_thread_process_init`, whatever happened since, every item
but the last needs that nothing is read. -/
theorem accumulates_iff :
    (∀ (s : Bus ι) (x : ι) (own len : ℤ) (reads : List Outcome),
      EachStep (Receiving.step x) (Receiving.Delivered x) ⟨s, []⟩ reads →
      (Receiving.Accumulates own len x ⟨s, []⟩ reads ↔
        reads = [] ∨ ∃ out, reads = [out] ∧ Receiving.Recorded own len x ⟨s, []⟩ out)) ∧
    ∀ (arena : Arena), arena.Fits → arena.base ≠ 0 → ∀ (m : ℕ → UInt8)
      (s t : Bus (Fin arena.quensNum)) (msCommond : ℤ)
      (callbacks : List (Callback (Fin arena.quensNum))),
      run (Bus.step msCommond) (arena.bus (arena.msThreadProcessInit ⟨m, []⟩) s) callbacks =
        .ok t →
      ∀ i : Fin arena.quensNum, (i : ℕ) + 1 < arena.quensNum → ∀ reads : List Outcome,
        EachStep (Receiving.step i) (Receiving.Delivered i) ⟨t, []⟩ reads →
        (Receiving.Accumulates (arena.base + arena.buffOffset i) arena.buffLen i ⟨t, []⟩ reads ↔
          reads = []) := by
  refine ⟨fun s x own len reads hreads ↦ Receiving.accumulates_iff_recorded own len rfl hreads,
    fun arena hfits hbase m s t msCommond callbacks h i hi reads hreads ↦ ?_⟩
  rw [Receiving.accumulates_iff_recorded _ _ rfl hreads]
  constructor
  · rintro (hnil | ⟨out, -, htail, -⟩)
    · exact hnil
    · have hlt := pdatabuf_lt hfits hbase h hi
      have hstart := htail.start
      simp only at hstart
      omega
  · exact .inl

/-- A block whose other fields happen to be right. -/
def luckyBus : Bus (Fin busArena.quensNum) :=
  { lists := ⟨fun _ ↦ none, none, fun _ ↦ none, fun _ ↦ none⟩
    item := fun _ ↦ ⟨Event.zero, Event.zero, ⟨0, 0⟩, 0, 0, 0, 1024, 0⟩
    mem := fun _ ↦ 0
    ithreadId := 0
    notify := fun _ ↦ []
    notifyArg := fun _ ↦ .frame
    soketPending := fun _ ↦ false
    timePending := fun _ ↦ false
    sockOpen := fun _ ↦ false
    currentBase := 0x1000 }

def startBus : Bus (Fin busArena.quensNum) :=
  busArena.bus (busArena.msThreadProcessInit ⟨fun _ ↦ 0, []⟩) luckyBus

def firstItem : Fin busArena.quensNum := ⟨0, by decide⟩

theorem startBus_alloc : ∃ lists, msItemAlloc startBus.lists = (some firstItem, lists) := by
  have hhead : startBus.lists.gPmsQuenes = some firstItem := by
    rw [startBus, Arena.bus_lists]
    exact busArena.index_itemAddr firstItem
  simp only [msItemAlloc, hhead]
  exact ⟨_, rfl⟩

/-- A connected item with its buffer in place. -/
def bufferBus : Bus (Fin 1) :=
  { connectedBus with
    item := fun x ↦ { connectedBus.item x with pdatabuf := 0x2000, ibufflen := 1024 } }

def eightBytes : Outcome := { quietOutcome with ilen := 8 }

/-- Eight bytes for the first client, with the pointers as they are and as
they were meant to be. -/
theorem not_accumulates_eight_bytes :
    (∃ t, run (Bus.step statusProcess) startBus [.accept 7 true] = .ok t ∧
      EachStep (Receiving.step firstItem) (Receiving.Delivered firstItem) ⟨t, []⟩ [eightBytes] ∧
      ¬Receiving.Accumulates (busArena.base + busArena.buffOffset firstItem) 1024 firstItem
        ⟨t, []⟩ [eightBytes]) ∧
    EachStep (Receiving.step 0) (Receiving.Delivered 0) ⟨bufferBus, []⟩ [eightBytes] ∧
    ¬Receiving.Accumulates 0x2000 1024 0 ⟨bufferBus, []⟩ [eightBytes] := by
  obtain ⟨lists, halloc⟩ := startBus_alloc
  have hrun : run (Bus.step statusProcess) startBus [.accept 7 true] =
      .ok (startBus.accepted 7 true firstItem lists) :=
    run_cons_ok (evAcceptCb_of_alloc (by decide) halloc) []
  refine ⟨⟨_, hrun, ⟨⟨by decide, ?_⟩, fun _ _ ↦ trivial⟩, fun h ↦ ?_⟩,
    ⟨⟨by decide, by decide⟩, fun _ _ ↦ trivial⟩, fun h ↦ ?_⟩
  · simp only [Receiving.asked, Bus.accepted, Function.update_self]
    decide
  · have hlt := pdatabuf_lt busArena_fits (by decide) hrun (i := firstItem) (by decide)
    have hstart := h.1.1.start
    simp only at hstart
    omega
  · have hlength := congrArg List.length h.1.2
    exact absurd hlength (by decide)

/-- A byte that the memory, the index and the length foretell. -/
theorem accumulates_one_recorded :
    Receiving.Accumulates 0x2000 1024 0
      ⟨bufferBus.setItem 0 { bufferBus.item 0 with iwriteIdx := 1 }, []⟩
      [{ quietOutcome with ilen := 1 }] :=
  (accumulates_iff.1 _ 0 0x2000 1024 [{ quietOutcome with ilen := 1 }]
    ⟨⟨by decide, by decide⟩, fun _ _ ↦ trivial⟩).mpr
    (.inr ⟨_, rfl, ⟨by decide, by decide, by decide, by decide⟩, by decide, by decide⟩)

end Cocool.Message
