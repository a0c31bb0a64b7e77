import SmlnjCfg.Codegen.Branch
import SmlnjCfg.Lib.Bits
import SmlnjCfg.Lib.Rounding

/-!
# `SmlnjCfg.Codegen.FloatToInt`: the conversion of floating-point numbers

A `FLOAT_TO_INT` carries a rounding mode, which its code does not look at: the
conversion instruction cuts off the fraction. The theorem
`FLOAT_TO_INT_rounds_iff` says on which numbers that is the rounding that the
mode asks for.
-/

set_option autoImplicit false

namespace SmlnjCfg

namespace IR

open Bits

/-! ### The numbers -/

/-- The exponent bits of a number. -/
def fexponent (ty : Ty) (x : Word) : Nat := fmagnitude ty x / 2 ^ ty.floatBits.2

/-- The mantissa bits of a number. -/
def fmantissa (ty : Ty) (x : Word) : Nat := fmagnitude ty x % 2 ^ ty.floatBits.2

/-- The exponent of the last mantissa bit of the numbers with an exponent field of
one, and of the subnormal ones. -/
def Ty.minExponent (ty : Ty) : Int := 2 - 2 ^ (ty.floatBits.1 - 1) - ty.floatBits.2

/-- The rational number that a floating-point number is, if it is finite. -/
def fval (ty : Ty) (x : Word) : Option ℚ :=
  if fexponent ty x = 2 ^ ty.floatBits.1 - 1 then none
  else
    let m : ℚ :=
      if fexponent ty x = 0 then fmantissa ty x * 2 ^ ty.minExponent
      else (2 ^ ty.floatBits.2 + fmantissa ty x) * 2 ^ (fexponent ty x - 1 + ty.minExponent)
    some (if x.toNat / 2 ^ (ty.floatBits.1 + ty.floatBits.2) % 2 = 1 then -m else m)

/-- The conversion instruction rounds a finite number toward zero, where the result
fits. -/
def Host.TruncatesFloats {γ : Type} (host : Host γ) : Prop :=
  ∀ (ty : Ty) (n : Nat) (x : Word) (q : ℚ), fval ty x = some q → Fits n (Rounding.toZero q) →
    host.fpToSI ty n x = some ((BitVec.ofInt n (Rounding.toZero q)).setWidth 64)

end IR

namespace CfgPrim

open Codegen Gen IR Bits

/-- The rounding that a mode asks for. -/
def RoundingMode.round : RoundingMode → ℚ → Int
  | .TO_NEAREST, q => Rounding.toEven q
  | .TO_NEGINF, q => ⌊q⌋
  | .TO_POSINF, q => ⌈q⌉
  | .TO_ZERO, q => Rounding.toZero q

/-- The numbers that a mode rounds toward zero. -/
def RoundingMode.Truncates : RoundingMode → ℚ → Prop
  | .TO_NEAREST, q => |q - Rounding.toZero q| < 1 / 2 ∨
      |q - Rounding.toZero q| = 1 / 2 ∧ Even (Rounding.toZero q)
  | .TO_NEGINF, q => 0 ≤ q ∨ Int.fract q = 0
  | .TO_POSINF, q => q ≤ 0 ∨ Int.fract q = 0
  | .TO_ZERO, _ => True

theorem RoundingMode.round_eq_toZero_iff (mode : RoundingMode) (q : ℚ) :
    mode.round q = Rounding.toZero q ↔ mode.Truncates q := by
  cases mode with
  | TO_NEAREST => exact Rounding.toEven_eq_toZero_iff q
  | TO_NEGINF => exact Rounding.floor_eq_toZero_iff q
  | TO_POSINF => exact Rounding.ceil_eq_toZero_iff q
  | TO_ZERO => exact iff_of_true rfl trivial

/-- A mode rounds to a neighbour. -/
theorem RoundingMode.round_mem (mode : RoundingMode) (q : ℚ) :
    mode.round q = ⌊q⌋ ∨ mode.round q = ⌈q⌉ := by
  cases mode with
  | TO_NEAREST => exact Rounding.toEven_mem q
  | TO_NEGINF => exact .inl rfl
  | TO_POSINF => exact .inr rfl
  | TO_ZERO =>
      rw [round, Rounding.toZero]
      split
      · exact .inl rfl
      · exact .inr rfl

/-- Where the rounding of a mode fits, the truncation does. -/
theorem RoundingMode.fits_toZero {mode : RoundingMode} {q : ℚ} {n : Nat}
    (h : Fits n (mode.round q)) : Fits n (Rounding.toZero q) := by
  have hpos : (0 : Int) < 2 ^ (n - 1) := by positivity
  exact Rounding.toZero_between (mode.round_mem q) h.1 h.2 (by omega) hpos

variable {act : Activation Sym} {c : Context} {s : State}

/-- The code generated for a `FLOAT_TO_INT` is well typed, and when it is executed
its result is the integer `r`. -/
def Rounds (act : Activation Sym) (c : Context) (s : State) (mode : RoundingMode)
    (fromSz toSz : Int) (args : List Val) (r : Int) : Prop :=
  ∃ v c' is s', ((Arith.FLOAT_TO_INT (Tagged.con mode) fromSz toSz : Arith .cpp).codegen args) c
      = .ok (v, c') ∧
    Ext c c' is ∧ (∀ p ∈ is, p.2.wellTyped = true) ∧ steps act is s = some s' ∧
    Is act c' s' v ((BitVec.ofInt (iBits toSz) r).setWidth 64) ∧ v.getType = iType toSz

/-- The code of the conversion, which does not look at the mode. -/
theorem codegen_FLOAT_TO_INT (mode : Tagged RoundingMode) (fromSz toSz : Int) (args : List Val)
    (c : Context) :
    ((Arith.FLOAT_TO_INT mode fromSz toSz : Arith .cpp).codegen args) c
      = (argAt args 0 >>= fun a => createFPToSI a (iType toSz)).run c := by
  show (((liftM (argAt args 0) : CodegenM Val) >>= fun a =>
    liftM (createFPToSI a (iType toSz))) : CodegenM Val) c = _
  rw [run_bind]
  rfl

/-- What the code computes: the fraction is cut off. -/
theorem does_floatToInt (hhost : act.host.TruncatesFloats) {fromSz : Int} (toSz : Int)
    {args : List Val} {a : Val} {x : Word} {q : ℚ} (harg : args[0]? = some a) (ha : Is act c s a x)
    (hty : a.getType = fType fromSz) (hq : fval (fType fromSz) x = some q)
    (hfit : Fits (iBits toSz) (Rounding.toZero q)) :
    (argAt args 0 >>= fun a => createFPToSI a (iType toSz)).Does act c s fun v c' s' =>
      Is act c' s' v ((BitVec.ofInt (iBits toSz) (Rounding.toZero q)).setWidth 64) ∧
        v.getType = iType toSz := by
  have hfloat : (fType fromSz).isFloatingPointTy = true := by
    cases fType_cases fromSz with
    | inl h => rw [h]; rfl
    | inr h => rw [h]; rfl
  refine .bind (.argAt harg ?_)
  refine .createCast ha (fun heq => ?_) (fun _ => ⟨?_, ?_⟩) fun v c' s' _ hv ht => ⟨hv, ht⟩
  · -- A floating-point type is no integer type.
    rw [hty] at heq
    rw [heq] at hfloat
    cases hfloat
  · rw [hty, CastOp.wellTyped, hfloat]
    rfl
  · rw [hty]
    exact hhost _ _ x q hq hfit

/-- Integers that fit are told apart by their bits. -/
theorem ofInt_injOn {n : Nat} (hn : 0 < n) (hn' : n ≤ 64) {r r' : Int} (hr : Fits n r)
    (hr' : Fits n r')
    (h : (BitVec.ofInt n r).setWidth 64 = (BitVec.ofInt n r').setWidth 64) : r = r' := by
  have hbits : BitVec.ofInt n r = BitVec.ofInt n r' := by
    have hset := congrArg (BitVec.setWidth n) h
    rwa [BitVec.setWidth_setWidth_of_le _ hn', BitVec.setWidth_setWidth_of_le _ hn',
      BitVec.setWidth_eq, BitVec.setWidth_eq] at hset
  have hint := congrArg BitVec.toInt hbits
  rwa [BitVec.toInt_ofInt_eq_self hn hr.1 hr.2, BitVec.toInt_ofInt_eq_self hn hr'.1 hr'.2] at hint

/-- The code rounds as the mode asks for exactly where the mode rounds toward zero. -/
theorem rounds_iff_toZero (hhost : act.host.TruncatesFloats) (mode : RoundingMode)
    (fromSz toSz : Int) {args : List Val} {a : Val} {x : Word} {q : ℚ}
    (harg : args[0]? = some a) (ha : Is act c s a x) (hty : a.getType = fType fromSz)
    (hq : fval (fType fromSz) x = some q) (hfit : Fits (iBits toSz) (mode.round q)) :
    Rounds act c s mode fromSz toSz args (mode.round q) ↔ mode.Truncates q := by
  rw [← mode.round_eq_toZero_iff]
  obtain ⟨v, c', s', hexec, hv, hvt⟩ := does_floatToInt hhost toSz harg ha hty hq
    (mode.fits_toZero hfit)
  obtain ⟨hrun, is, hext, htys, hsteps⟩ := exec_eq_some.mp hexec
  rw [← codegen_FLOAT_TO_INT (.con mode) fromSz] at hrun
  constructor
  · rintro ⟨v₁, c₁, is₁, s₁, hrun₁, hext₁, -, hsteps₁, hv₁, -⟩
    rw [hrun] at hrun₁
    cases hrun₁
    rw [hext.unique hext₁, hsteps₁] at hsteps
    cases hsteps
    have hw := Option.some.inj (hv₁.eval.symm.trans hv.eval)
    have hbits := iBits_cases toSz
    exact ofInt_injOn (by omega) (by omega) hfit (mode.fits_toZero hfit) hw
  · intro heq
    rw [heq]
    exact ⟨v, c', is, s', hrun, hext, htys, hsteps, hv, hvt⟩

/-- For every mode and every finite number, of either floating-point type, whose
rounding fits an integer of `32` or `64` bits: the code generated for a `FLOAT_TO_INT` gives
the rounding exactly if the mode rounds this number toward zero. -/
theorem FLOAT_TO_INT_rounds_iff (act : Activation Sym) (hhost : act.host.TruncatesFloats)
    (c : Context) (s : State) (mode : RoundingMode) (fromSz : Int) {toSz : Int}
    (hto : toSz = 32 ∨ toSz = 64) {args : List Val} {a : Val} {x : Word} {q : ℚ}
    (harg : args[0]? = some a) (ha : Is act c s a x)
    (hty : a.getType = fType fromSz) (hq : fval (fType fromSz) x = some q)
    (hfit : Fits toSz.toNat (mode.round q)) :
    Rounds act c s mode fromSz toSz args (mode.round q) ↔ mode.Truncates q := by
  have hbits : toSz.toNat = iBits toSz := by
    rcases hto with rfl | rfl <;> rfl
  rw [hbits] at hfit
  exact rounds_iff_toZero hhost mode fromSz toSz harg ha hty hq hfit

/-- A host whose conversion truncates, and a function with a number as its
argument. -/
def floatArg (x : Word) : Activation Sym where
  host :=
    { (floatArgs x x).host with
      fpToSI := fun ty n x => (fval ty x).bind fun q =>
        if Fits n (Rounding.toZero q) then
          some ((BitVec.ofInt n (Rounding.toZero q)).setWidth 64)
        else none }
  args := [some x]

theorem truncatesFloats_floatArg (x : Word) : (floatArg x).host.TruncatesFloats := by
  intro ty n y q hq hfit
  show (fval ty y).bind _ = _
  rw [hq, Option.bind_some, if_pos hfit]

/-- One half, and minus one half. -/
theorem fval_half : fval .double 0x3fe0000000000000 = some (1 / 2) ∧
    fval .double 0xbfe0000000000000 = some (-1 / 2) := by
  decide +kernel

/-- One half is rounded down to zero. -/
theorem rounds_half :
    Rounds (floatArg 0x3fe0000000000000) (Context.create x86_64Info) ⟨fun _ => [], fun _ => 0, []⟩
      .TO_NEGINF 64 64 [.arg 0 .double] ⌊(1 / 2 : ℚ)⌋ := by
  have harg : Is (floatArg 0x3fe0000000000000) (Context.create x86_64Info)
      ⟨fun _ => [], fun _ => 0, []⟩ (.arg 0 .double) 0x3fe0000000000000 := ⟨trivial, rfl⟩
  exact (FLOAT_TO_INT_rounds_iff (floatArg 0x3fe0000000000000) (truncatesFloats_floatArg _) _ _
    .TO_NEGINF 64 (.inr rfl) rfl harg rfl fval_half.1 (by decide +kernel)).mpr
      (.inl (by norm_num))

/-- Minus one half is to be rounded down to minus one, but the code gives zero. -/
theorem not_rounds_minus_half :
    fval .double 0xbfe0000000000000 = some (-1 / 2) ∧ ⌊(-1 / 2 : ℚ)⌋ = -1 ∧
    Rounds (floatArg 0xbfe0000000000000) (Context.create x86_64Info) ⟨fun _ => [], fun _ => 0, []⟩
      .TO_ZERO 64 64 [.arg 0 .double] 0 ∧
    ¬ Rounds (floatArg 0xbfe0000000000000) (Context.create x86_64Info) ⟨fun _ => [], fun _ => 0, []⟩
      .TO_NEGINF 64 64 [.arg 0 .double] (-1) := by
  have hfloor : ⌊(-1 / 2 : ℚ)⌋ = -1 := by decide +kernel
  have hzero : Rounding.toZero (-1 / 2 : ℚ) = 0 := by decide +kernel
  have harg : Is (floatArg 0xbfe0000000000000) (Context.create x86_64Info)
      ⟨fun _ => [], fun _ => 0, []⟩ (.arg 0 .double) 0xbfe0000000000000 := ⟨trivial, rfl⟩
  have hargs : [Value.arg 0 .double][0]? = some (.arg 0 .double : Val) := rfl
  have hiff := fun mode => rounds_iff_toZero (truncatesFloats_floatArg 0xbfe0000000000000) mode
    64 64 hargs harg rfl fval_half.2
  refine ⟨fval_half.2, hfloor, ?_, ?_⟩
  · have hz := (hiff .TO_ZERO (by decide +kernel)).mpr trivial
    rwa [RoundingMode.round, hzero] at hz
  · intro h
    have hr : RoundingMode.round .TO_NEGINF (-1 / 2) = -1 := hfloor
    have ht := (hiff .TO_NEGINF (by decide +kernel)).mp (hr.symm ▸ h)
    rcases ht with h0 | h0
    · norm_num at h0
    · exact absurd h0 (by decide +kernel)

end CfgPrim

end SmlnjCfg
