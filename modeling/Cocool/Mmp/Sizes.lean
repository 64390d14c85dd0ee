import Cocool.Lib.Ints
import Cocool.Mmp.Blocks

/-!
# The sizes of the blocks in machine arithmetic

The pool counts its slots in `int`, computes the size of the header block in
`size_t`, and passes both sizes through the `int` parameter of
`cocol_malloc` and `cocol_realloc`, which convert them to `size_t` once
more.  Here the sizes alone are computed as a machine with 32-bit `int` and
64-bit `size_t` does it.
-/

namespace Cocool.Mmp

open Lib

/-! ## Machine arithmetic -/

/-- A signed operation whose result is no `int`. -/
inductive SizeFault
  | overflow
  deriving DecidableEq

def addInt (a b : ℤ) : Except SizeFault ℤ :=
  if InSigned 32 (a + b) then .ok (a + b) else .error .overflow

def mulInt (a b : ℤ) : Except SizeFault ℤ :=
  if InSigned 32 (a * b) then .ok (a * b) else .error .overflow

/-- `sizeof(struct cocol_type_header)`. -/
def headerBytes : ℕ := 40

/-- The argument `n * sizeof(struct cocol_type_header)`: the `int` count is
converted for the product in `size_t`, and the product for the `int`
parameter. -/
def headersLen (n : ℤ) : ℤ :=
  wrapSigned 32 (wrapUnsigned 64 (wrapUnsigned 64 n * headerBytes))

/-- The offset `imemLen * iheapIdx`, where `iheapIdx` is an
`unsigned int`. -/
def slotOffset (imemLen : ℤ) (k : ℕ) : ℕ := wrapUnsigned 32 (wrapUnsigned 32 imemLen * k)

/-- One answer of the system allocator to each size, which is none for
2^63 bytes or more. -/
structure Allocator where
  answer : ℕ → Option Addr
  large : ∀ n, 2 ^ 63 ≤ n → answer n = none

/-- The answer to an `int` length, with the bytes that were asked for. -/
def Allocator.grant (m : Allocator) (len : ℤ) : Option (Addr × ℕ) :=
  (m.answer (wrapUnsigned 64 len)).map fun a ↦ (a, wrapUnsigned 64 len)

def cocolMalloc (m : Allocator) (itotolLen : ℤ) : Option (Addr × ℕ) := m.grant itotolLen

def cocolRealloc (m : Allocator) (ilen : ℤ) : Option (Addr × ℕ) := m.grant ilen

/-- The answers to the four requests that a pool can make during one
call. -/
structure Memory where
  mallocRoot : Allocator
  mallocData : Allocator
  reallocRoot : Allocator
  reallocData : Allocator

/-! ## Sizes -/

/-- The sizes in a `struct mm_pool_header`, and the bytes of the blocks
last obtained for `proot` and for `pmemData`. -/
structure PoolSizes where
  imemSize : ℤ
  imemLen : ℤ
  binitialized : Bool
  rootBytes : Option ℕ
  dataBytes : Option ℕ

/-- `MM_POOL_ROUNDUP(a,b)` in `int`, for a power of two `b`. -/
def mmPoolRoundupInt (a b : ℤ) : Except SizeFault ℤ := do
  let x ← addInt a b
  let x ← addInt x (-1)
  .ok (x - x % b)

/-- What `mm_pool_init` does to the sizes. -/
def mmPoolInitSizes (z : PoolSizes) (m : Memory) : Except SizeFault (Bool × PoolSizes) :=
  if z.binitialized then .ok (false, z)
  else do
    let imemLen ← mmPoolRoundupInt z.imemLen 4
    let imemSize ← mmPoolRoundupInt z.imemSize 4
    let z := { z with imemLen, imemSize }
    match cocolMalloc m.mallocRoot (headersLen imemSize) with
    | none => .ok (false, z)
    | some (_, n) =>
        let z := { z with rootBytes := some n }
        let len ← mulInt imemSize imemLen
        match cocolMalloc m.mallocData len with
        | none => .ok (false, z)
        | some (_, n) => .ok (true, { z with dataBytes := some n, binitialized := true })

/-- What `mm_pool_expand` does to the sizes. -/
def mmPoolExpandSizes (z : PoolSizes) (m : Memory) : Except SizeFault (Bool × PoolSizes) := do
  let count ← addInt z.imemSize mmPoolExpandNum
  match cocolRealloc m.reallocRoot (headersLen count) with
  | none => .ok (false, z)
  | some (_, n) =>
      let z := { z with rootBytes := some n }
      let count ← addInt z.imemSize mmPoolExpandNum
      let len ← mulInt count z.imemLen
      match cocolRealloc m.reallocData len with
      | none => .ok (false, z)
      | some (_, n) => .ok (true, { z with dataBytes := some n, imemSize := count })

inductive SizeOp
  | init (m : Memory)
  | expand (m : Memory)

/-- An uninitialised pool is not expanded. -/
def sizeStep (z : PoolSizes) : SizeOp → Except SizeFault PoolSizes
  | .init m => (mmPoolInitSizes z m).map Prod.snd
  | .expand m =>
      if z.binitialized then (mmPoolExpandSizes z m).map Prod.snd else .ok z

inductive DeclaredPool
  | string
  | int
  | char

def DeclaredPool.decl (self pdataType : Addr) : DeclaredPool → PoolDecl
  | .string => gStringHeader self pdataType
  | .int => gIntHeader self pdataType
  | .char => gCharHeader self pdataType

def PoolDecl.sizes (d : PoolDecl) : PoolSizes := ⟨d.imemSize, d.imemLen, false, none, none⟩

/-! ## Which requests are granted -/

theorem addInt_eq {a b : ℤ} (h : InSigned 32 (a + b)) : addInt a b = .ok (a + b) := if_pos h

theorem mulInt_eq {a b : ℤ} (h : InSigned 32 (a * b)) : mulInt a b = .ok (a * b) := if_pos h

theorem inSigned_of_lt {n : ℤ} (h0 : 0 ≤ n) (hn : n < 2147483648) : InSigned 32 n := by
  constructor
  · norm_num
    omega
  · norm_num
    omega

theorem headersLen_eq {n : ℤ} (h0 : 0 ≤ n) (hn : n ≤ 1000000000) :
    headersLen n = wrapSigned 32 (n * 40) := by
  have hcount : (wrapUnsigned 64 n : ℤ) = n := wrapUnsigned_of_lt h0 (by norm_num; omega)
  have hbytes : (wrapUnsigned 64 (n * 40) : ℤ) = n * 40 :=
    wrapUnsigned_of_lt (by omega) (by norm_num; omega)
  simp only [headersLen, headerBytes, hcount, Nat.cast_ofNat, hbytes]

/-- A length that fits an `int` is asked for as it is. -/
theorem Allocator.grant_bytes (m : Allocator) {len : ℤ} {r : Addr × ℕ} (h0 : 0 ≤ len)
    (hlen : len < 2147483648) (h : m.grant len = some r) : (r.2 : ℤ) = len := by
  obtain ⟨a, -, rfl⟩ := Option.map_eq_some_iff.mp h
  exact wrapUnsigned_of_lt h0 (by norm_num; omega)

/-- A negative length is too large for the allocator. -/
theorem Allocator.grant_neg (m : Allocator) {len : ℤ} (hlo : -2147483648 ≤ len) (h : len < 0) :
    m.grant len = none := by
  have hlarge : (2 : ℤ) ^ (64 - 1) ≤ wrapUnsigned 64 len :=
    le_wrapUnsigned_of_neg (by norm_num) (by norm_num; omega) h
  rw [Allocator.grant, m.large _ (by exact_mod_cast hlarge)]
  rfl

/-- The header request is granted up to 53687088 headers, in steps of 16;
the next one has turned negative. -/
theorem Allocator.grant_headers (m : Allocator) {n : ℤ} {r : Addr × ℕ} (h0 : 0 ≤ n)
    (hn : n ≤ 53687104) (hdvd : 16 ∣ n) (h : m.grant (headersLen n) = some r) :
    n ≤ 53687088 ∧ (r.2 : ℤ) = n * 40 := by
  rw [headersLen_eq h0 (by omega)] at h
  by_cases hfit : n * 40 < 2147483648
  · rw [wrapSigned_of_inSigned (by norm_num) (inSigned_of_lt (by omega) hfit)] at h
    exact ⟨by omega, m.grant_bytes (by omega) hfit h⟩
  · have hneg : wrapSigned 32 (n * 40) = n * 40 - 2 ^ 32 :=
      wrapSigned_of_upper (by norm_num) (by norm_num; omega) (by norm_num; omega)
    rw [hneg, m.grant_neg (by norm_num; omega) (by norm_num; omega)] at h
    simp at h

/-! ## Runs -/

/-- What every reachable state keeps: sizes from the declared ones up to
the largest that is granted, and blocks for them. -/
structure Sized (z : PoolSizes) : Prop where
  step : 16 ∣ z.imemSize
  size_pos : 0 < z.imemSize
  size_le : z.imemSize ≤ 53687088
  len_pos : 0 < z.imemLen
  len_le : z.imemLen ≤ 32
  root : ∀ n ∈ z.rootBytes, z.imemSize * headerBytes ≤ n
  data : ∀ n ∈ z.dataBytes, z.imemSize * z.imemLen ≤ n
  obtained : z.binitialized = true → z.rootBytes ≠ none ∧ z.dataBytes ≠ none
  fresh : z.binitialized = false → z.dataBytes = none

/-- The blocks obtained are large enough, and each slot has an offset that
does not wrap around and its bytes inside of the data block. -/
structure Sufficient (z : PoolSizes) : Prop where
  root : ∀ n ∈ z.rootBytes, z.imemSize * headerBytes ≤ n
  data : ∀ n ∈ z.dataBytes, z.imemSize * z.imemLen ≤ n
  obtained : z.binitialized = true → z.rootBytes ≠ none ∧ z.dataBytes ≠ none
  offset : ∀ n ∈ z.dataBytes, ∀ k : ℕ, k < z.imemSize →
    InSigned 32 (z.imemLen * k) ∧ (slotOffset z.imemLen k : ℤ) = z.imemLen * k ∧
      slotOffset z.imemLen k + z.imemLen ≤ n

section

variable {z y : PoolSizes}

theorem mul_len_lt {n len : ℤ} (hn : n ≤ 53687088) (h0 : 0 ≤ n) (hlen : len ≤ 32) :
    n * len < 2147483648 := by
  have hmul : n * len ≤ n * 32 := Int.mul_le_mul_of_nonneg_left hlen h0
  omega

theorem Sized.sufficient (hz : Sized z) : Sufficient z := by
  refine ⟨hz.root, hz.data, hz.obtained, fun n hn k hk ↦ ?_⟩
  have hlen := hz.len_pos
  have hbound : (k : ℤ) * z.imemLen + z.imemLen ≤ z.imemSize * z.imemLen := by
    have hstep : ((k : ℤ) + 1) * z.imemLen ≤ z.imemSize * z.imemLen :=
      Int.mul_le_mul_of_nonneg_right (by omega) hlen.le
    rwa [add_mul, one_mul] at hstep
  have htotal := mul_len_lt hz.size_le hz.size_pos.le hz.len_le
  have hprod : 0 ≤ z.imemLen * (k : ℤ) := mul_nonneg hlen.le (by omega)
  rw [mul_comm] at hbound
  have hconv : (wrapUnsigned 32 z.imemLen : ℤ) = z.imemLen :=
    wrapUnsigned_of_lt hlen.le (by have := hz.len_le; norm_num; omega)
  have hoff : (slotOffset z.imemLen k : ℤ) = z.imemLen * k := by
    rw [slotOffset, hconv]
    exact wrapUnsigned_of_lt hprod (by norm_num; omega)
  have hn' := hz.data n hn
  refine ⟨inSigned_of_lt hprod (by omega), hoff, ?_⟩
  rw [hoff]
  omega

/-- Rounding a small positive number to the next multiple of four. -/
theorem mmPoolRoundupInt_eq {a : ℤ} (h0 : 0 < a) (ha : a ≤ 53687088) :
    ∃ x, mmPoolRoundupInt a 4 = .ok x ∧ a ≤ x ∧ x ≤ a + 3 ∧ 4 ∣ x := by
  refine ⟨a + 3 - (a + 3) % 4, ?_, by omega, by omega, by omega⟩
  rw [mmPoolRoundupInt, addInt_eq (inSigned_of_lt (by omega) (by omega))]
  simp only [bind, Except.bind]
  rw [addInt_eq (inSigned_of_lt (by omega) (by omega))]
  simp only [Except.ok.injEq]
  omega

/-- The three ways an initialisation can go, with the bytes obtained. -/
theorem Sized.init_cases (hz : Sized z) (hinit : z.binitialized = false) (m : Memory) :
    ∃ len, mmPoolRoundupInt z.imemLen 4 = .ok len ∧ 0 < len ∧ len ≤ 32 ∧
      ((cocolMalloc m.mallocRoot (headersLen z.imemSize) = none ∧
        mmPoolInitSizes z m = .ok (false, { z with imemLen := len })) ∨
      ∃ a n, cocolMalloc m.mallocRoot (headersLen z.imemSize) = some (a, n) ∧
        (n : ℤ) = z.imemSize * headerBytes ∧
        ((cocolMalloc m.mallocData (z.imemSize * len) = none ∧
          mmPoolInitSizes z m = .ok (false, { z with imemLen := len, rootBytes := some n })) ∨
        ∃ b k, cocolMalloc m.mallocData (z.imemSize * len) = some (b, k) ∧
          (k : ℤ) = z.imemSize * len ∧
          mmPoolInitSizes z m = .ok (true, { z with
            imemLen := len, rootBytes := some n, dataBytes := some k, binitialized := true }))) := by
  have hpos := hz.size_pos
  have hle := hz.size_le
  have hlenLe := hz.len_le
  obtain ⟨len, hlenEq, hlen1, hlen2, hlen3⟩ :=
    mmPoolRoundupInt_eq hz.len_pos (by omega)
  obtain ⟨size, hsizeEq, hsize1, hsize2, hsize3⟩ := mmPoolRoundupInt_eq hpos hle
  -- the declared sizes are multiples of four already
  obtain rfl : size = z.imemSize := by
    have := hz.step
    omega
  have hsmall : len ≤ 32 := by omega
  have hprod := mul_len_lt hle hpos.le hsmall
  have hlenPos : 0 < len := hz.len_pos.trans_le hlen1
  have hprod0 : 0 ≤ z.imemSize * len := mul_nonneg hpos.le hlenPos.le
  refine ⟨len, hlenEq, hlenPos, hsmall, ?_⟩
  rw [mmPoolInitSizes, if_neg (by simp [hinit])]
  simp only [hlenEq, hsizeEq, bind, Except.bind, mulInt_eq (inSigned_of_lt hprod0 hprod)]
  cases hroot : cocolMalloc m.mallocRoot (headersLen z.imemSize) with
  | none => exact .inl ⟨rfl, rfl⟩
  | some p =>
      obtain ⟨-, hbytes⟩ := m.mallocRoot.grant_headers hpos.le (by omega) hz.step hroot
      refine .inr ⟨p.1, p.2, rfl, hbytes, ?_⟩
      cases hdata : cocolMalloc m.mallocData (z.imemSize * len) with
      | none => exact .inl ⟨rfl, rfl⟩
      | some d => exact .inr ⟨d.1, d.2, rfl, m.mallocData.grant_bytes hprod0 hprod hdata, rfl⟩

/-- The three ways an expansion can go, with the bytes obtained. -/
theorem Sized.expand_cases (hz : Sized z) (m : Memory) :
    (cocolRealloc m.reallocRoot (headersLen (z.imemSize + mmPoolExpandNum)) = none ∧
      mmPoolExpandSizes z m = .ok (false, z)) ∨
    ∃ a n, cocolRealloc m.reallocRoot (headersLen (z.imemSize + mmPoolExpandNum)) = some (a, n) ∧
      z.imemSize + mmPoolExpandNum ≤ 53687088 ∧
      (n : ℤ) = (z.imemSize + mmPoolExpandNum) * headerBytes ∧
      ((cocolRealloc m.reallocData ((z.imemSize + mmPoolExpandNum) * z.imemLen) = none ∧
        mmPoolExpandSizes z m = .ok (false, { z with rootBytes := some n })) ∨
      ∃ b k, cocolRealloc m.reallocData ((z.imemSize + mmPoolExpandNum) * z.imemLen) =
          some (b, k) ∧
        (k : ℤ) = (z.imemSize + mmPoolExpandNum) * z.imemLen ∧
        mmPoolExpandSizes z m = .ok (true, { z with
          imemSize := z.imemSize + mmPoolExpandNum
          rootBytes := some n
          dataBytes := some k })) := by
  have hpos := hz.size_pos
  have hle := hz.size_le
  have hstep := hz.step
  have hnum : (mmPoolExpandNum : ℤ) = 16 := rfl
  have hcount : addInt z.imemSize mmPoolExpandNum = .ok (z.imemSize + mmPoolExpandNum) :=
    addInt_eq (inSigned_of_lt (by omega) (by omega))
  rw [mmPoolExpandSizes]
  simp only [hcount, bind, Except.bind]
  cases hroot : cocolRealloc m.reallocRoot (headersLen (z.imemSize + mmPoolExpandNum)) with
  | none => exact .inl ⟨rfl, rfl⟩
  | some p =>
      -- the request was positive, so the product is small as well
      obtain ⟨hfit, hbytes⟩ :=
        m.reallocRoot.grant_headers (by omega) (by omega) (by omega) hroot
      have hprod := mul_len_lt hfit (by omega) hz.len_le
      have hprod0 : 0 ≤ (z.imemSize + mmPoolExpandNum) * z.imemLen :=
        mul_nonneg (by omega) hz.len_pos.le
      refine .inr ⟨p.1, p.2, rfl, hfit, hbytes, ?_⟩
      simp only [mulInt_eq (inSigned_of_lt hprod0 hprod)]
      cases hdata : cocolRealloc m.reallocData ((z.imemSize + mmPoolExpandNum) * z.imemLen) with
      | none => exact .inl ⟨rfl, rfl⟩
      | some d => exact .inr ⟨d.1, d.2, rfl, m.reallocData.grant_bytes hprod0 hprod hdata, rfl⟩

theorem Sized.init (hz : Sized z) (m : Memory) :
    ∃ b y, mmPoolInitSizes z m = .ok (b, y) ∧ Sized y := by
  cases hinit : z.binitialized with
  | true => exact ⟨false, z, if_pos hinit, hz⟩
  | false =>
      have hnodata := hz.fresh hinit
      obtain ⟨len, -, hlen, hsmall, hcases⟩ := hz.init_cases hinit m
      have hcover : ∀ n : ℕ, (n : ℤ) = z.imemSize * headerBytes →
          ∀ k ∈ some n, z.imemSize * headerBytes ≤ (k : ℤ) := by
        rintro n hn k ⟨⟩
        exact hn.ge
      rcases hcases with ⟨-, heq⟩ | ⟨a, n, -, hn, ⟨-, heq⟩ | ⟨b, k, -, hk, heq⟩⟩
      · refine ⟨false, _, heq, hz.step, hz.size_pos, hz.size_le, hlen, hsmall, hz.root, ?_, ?_,
          hz.fresh⟩
        · simp [hnodata]
        · simp [hinit]
      · refine ⟨false, _, heq, hz.step, hz.size_pos, hz.size_le, hlen, hsmall, hcover n hn, ?_, ?_,
          hz.fresh⟩
        · simp [hnodata]
        · simp [hinit]
      · refine ⟨true, _, heq, hz.step, hz.size_pos, hz.size_le, hlen, hsmall, hcover n hn, ?_, ?_,
          ?_⟩
        · rintro d ⟨⟩
          exact hk.ge
        · simp
        · simp

theorem Sized.expand (hz : Sized z) (hinit : z.binitialized = true) (m : Memory) :
    ∃ b y, mmPoolExpandSizes z m = .ok (b, y) ∧ Sized y := by
  have hnum : (mmPoolExpandNum : ℤ) = 16 := rfl
  have hpos := hz.size_pos
  have hstep := hz.step
  rcases hz.expand_cases m with
    ⟨-, heq⟩ | ⟨a, n, -, hfit, hn, ⟨-, heq⟩ | ⟨b, k, -, hk, heq⟩⟩
  · exact ⟨false, z, heq, hz⟩
  · refine ⟨false, _, heq, hz.step, hz.size_pos, hz.size_le, hz.len_pos, hz.len_le, ?_, hz.data,
      ?_, hz.fresh⟩
    · rintro d ⟨⟩
      have hmore : z.imemSize ≤ z.imemSize + mmPoolExpandNum := by omega
      rw [hn]
      exact Int.mul_le_mul_of_nonneg_right hmore (by omega)
    · exact fun _ ↦ ⟨by simp, (hz.obtained hinit).2⟩
  · refine ⟨true, _, heq, ?_, ?_, hfit, hz.len_pos, hz.len_le, ?_, ?_, ?_, ?_⟩
    · simp only
      omega
    · simp only
      omega
    · rintro d ⟨⟩
      exact hn.ge
    · rintro d ⟨⟩
      exact hk.ge
    · simp
    · simp [hinit]

theorem Sized.next (hz : Sized z) (op : SizeOp) : ∃ y, sizeStep z op = .ok y ∧ Sized y := by
  cases op with
  | init m =>
      obtain ⟨b, y, hy, hsized⟩ := hz.init m
      exact ⟨y, by simp [sizeStep, hy, Except.map], hsized⟩
  | expand m =>
      cases hinit : z.binitialized with
      | true =>
          obtain ⟨b, y, hy, hsized⟩ := hz.expand hinit m
          exact ⟨y, by simp [sizeStep, hinit, hy, Except.map], hsized⟩
      | false => exact ⟨z, by simp [sizeStep, hinit], hz⟩

theorem sized_declared (p : DeclaredPool) (self pdataType : Addr) :
    Sized (p.decl self pdataType).sizes := by
  have hdecl : 16 ∣ ((p.decl self pdataType).imemSize : ℤ) ∧
      ((p.decl self pdataType).imemSize : ℤ) ≤ 1024 ∧
      ((p.decl self pdataType).imemLen : ℤ) ≤ 32 := by
    cases p <;> simp only [DeclaredPool.decl, gStringHeader, gIntHeader, gCharHeader] <;> decide
  obtain ⟨hdvd, hsize, hlen⟩ := hdecl
  have hsize0 := (p.decl self pdataType).size_pos
  have hlen0 := (p.decl self pdataType).len_pos
  refine ⟨hdvd, ?_, ?_, ?_, hlen, ?_, ?_, ?_, fun _ ↦ rfl⟩
  · exact Int.natCast_pos.mpr hsize0
  · exact hsize.trans (by decide)
  · exact Int.natCast_pos.mpr hlen0
  · simp [PoolDecl.sizes]
  · simp [PoolDecl.sizes]
  · simp [PoolDecl.sizes]

theorem sizeStep_sized {op : SizeOp} (hz : Sized z) (h : sizeStep z op = .ok y) : Sized y := by
  obtain ⟨x, hx, hsized⟩ := hz.next op
  obtain rfl : x = y := Except.ok.inj (hx.symm.trans h)
  exact hsized

/-- However often a declared pool is initialised and expanded, and whatever
the allocator answers, no size overflows and every block is large enough
for the slots. -/
theorem pool_sizes_sufficient (p : DeclaredPool) (self pdataType : Addr) (ops : List SizeOp) :
    (∃ z, run sizeStep (p.decl self pdataType).sizes ops = .ok z) ∧
      Always sizeStep Sufficient (p.decl self pdataType).sizes ops := by
  have hstart := sized_declared p self pdataType
  constructor
  · have hall : EachStep sizeStep (fun _ _ ↦ True) (p.decl self pdataType).sizes ops :=
      (always_of_step (fun _ _ _ _ _ ↦ trivial) trivial ops :
        Always sizeStep (fun _ ↦ True) _ ops).eachStep fun _ _ _ ↦ trivial
    apply run_total _ _ hstart hall
    · intro z op y hz _ h
      exact sizeStep_sized hz h
    · intro z op hz _
      obtain ⟨y, hy, -⟩ := hz.next op
      exact ⟨y, hy⟩
  · apply (always_of_step _ hstart ops).mono fun z hz ↦ hz.sufficient
    intro z op y hz h
    exact sizeStep_sized hz h

end

end Cocool.Mmp
