import Mathlib.Algebra.Order.Round
import Mathlib.Algebra.Order.Archimedean.Basic
import Mathlib.Data.Rat.Floor
import Mathlib.Tactic.Linarith

/-!
# `SmlnjCfg.Lib.Rounding`: directed rounding and truncation

The integers next to a number `q` are `⌊q⌋` and `⌈q⌉`; a rounding chooses one of
them. `toZero` chooses the one of the smaller magnitude, and `toEven` the nearer
one, or the even one of two that are equally near.

* `floor_eq_toZero_iff`, `ceil_eq_toZero_iff`, `toEven_eq_toZero_iff`: on which
  numbers the other roundings agree with `toZero`.
* `toZero_between`: where a rounding fits, so does `toZero`.
-/

set_option autoImplicit false

namespace SmlnjCfg.Rounding

variable {α : Type*} [Field α] [LinearOrder α] [IsStrictOrderedRing α] [FloorRing α]

/-- Round toward zero. -/
def toZero (q : α) : ℤ := if 0 ≤ q then ⌊q⌋ else ⌈q⌉

/-- Round to the nearest integer, and to the even one in the middle of two. -/
def toEven (q : α) : ℤ :=
  if Int.fract q < 1 / 2 ∨ Int.fract q = 1 / 2 ∧ Even ⌊q⌋ then ⌊q⌋ else ⌈q⌉

/-- A number that is no integer lies strictly between its neighbours. -/
theorem ceil_eq_of_fract_ne_zero {q : α} (h : Int.fract q ≠ 0) : ⌈q⌉ = ⌊q⌋ + 1 := by
  have hpos : 0 < Int.fract q := lt_of_le_of_ne (Int.fract_nonneg q) (Ne.symm h)
  have hlt := Int.fract_lt_one q
  rw [Int.ceil_eq_iff]
  push_cast
  rw [Int.fract] at hpos hlt
  constructor
  · linarith
  · linarith

/-- An integer is its own neighbour. -/
theorem ceil_eq_floor_iff {q : α} : ⌈q⌉ = ⌊q⌋ ↔ Int.fract q = 0 := by
  constructor
  · intro h
    by_contra hne
    have := ceil_eq_of_fract_ne_zero hne
    omega
  · intro h
    have hq : q = ⌊q⌋ := by
      rw [Int.fract] at h
      linarith
    rw [hq, Int.ceil_intCast, Int.floor_intCast]

/-- Rounding down is truncation from zero upwards, and on integers. -/
theorem floor_eq_toZero_iff (q : α) : ⌊q⌋ = toZero q ↔ 0 ≤ q ∨ Int.fract q = 0 := by
  rw [toZero]
  split
  next h => exact iff_of_true rfl (.inl h)
  next h =>
    rw [eq_comm, ceil_eq_floor_iff]
    exact ⟨.inr, fun hor => hor.resolve_left h⟩

/-- Rounding up is truncation up to zero, and on integers. -/
theorem ceil_eq_toZero_iff (q : α) : ⌈q⌉ = toZero q ↔ q ≤ 0 ∨ Int.fract q = 0 := by
  rw [toZero]
  split
  next h =>
    rw [ceil_eq_floor_iff]
    constructor
    · exact .inr
    · rintro (h0 | h0)
      · have hq : q = 0 := le_antisymm h0 h
        rw [hq, Int.fract_zero]
      · exact h0
  next h => exact iff_of_true rfl (.inl (le_of_not_ge h))

/-- Rounding to the nearest is truncation if less than half is cut off, or if half
is and the result is even. -/
theorem toEven_eq_toZero_iff (q : α) :
    toEven q = toZero q ↔
      |q - toZero q| < 1 / 2 ∨ |q - toZero q| = 1 / 2 ∧ Even (toZero q) := by
  have h0 := Int.fract_nonneg q
  have h1 := Int.fract_lt_one q
  have hfloor : q - ⌊q⌋ = Int.fract q := rfl
  by_cases hint : Int.fract q = 0
  · -- An integer is rounded to itself.
    have hceil := ceil_eq_floor_iff.mpr hint
    have hz : toZero q = ⌊q⌋ := by
      rw [toZero]
      split
      · rfl
      · exact hceil
    have he : toEven q = ⌊q⌋ := by
      rw [toEven, hint, if_pos (.inl (by norm_num))]
    rw [hz, he, hfloor, hint, abs_zero]
    exact iff_of_true rfl (.inl (by norm_num))
  · have hceil := ceil_eq_of_fract_ne_zero hint
    rw [toZero]
    split
    next hq =>
      rw [hfloor, abs_of_nonneg h0, toEven]
      split
      next hdown => exact iff_of_true rfl hdown
      next hup => exact iff_of_false (by omega) hup
    next hq =>
      have hcut : |q - (⌈q⌉ : α)| = 1 - Int.fract q := by
        rw [hceil, abs_of_nonpos]
        · push_cast
          rw [Int.fract]
          ring
        · push_cast
          rw [Int.fract] at h1
          linarith
      rw [hcut, toEven]
      split
      next hdown =>
        refine iff_of_false (by omega) ?_
        rintro (hlt | ⟨heq, heven⟩)
        · cases hdown with
          | inl h => linarith
          | inr h => linarith [h.1]
        · cases hdown with
          | inl h => linarith
          | inr h =>
              -- Two neighbours are not both even.
              rw [hceil] at heven
              exact (Int.even_add_one.mp heven) h.2
      next hup =>
        refine iff_of_true rfl ?_
        simp only [not_or, not_lt, not_and] at hup
        rcases lt_or_eq_of_le hup.1 with hlt | heq
        · exact .inl (by linarith)
        · refine .inr ⟨by linarith, ?_⟩
          rw [hceil]
          exact Int.even_add_one.mpr (hup.2 heq.symm)

/-- If one of the neighbours is in a range around zero, the truncation is. -/
theorem toZero_between {q : α} {r lo hi : ℤ} (hr : r = ⌊q⌋ ∨ r = ⌈q⌉) (hlo : lo ≤ r) (hhi : r < hi)
    (hlo0 : lo ≤ 0) (hhi0 : 0 < hi) : lo ≤ toZero q ∧ toZero q < hi := by
  have hle : ⌊q⌋ ≤ ⌈q⌉ := Int.floor_le_ceil q
  rw [toZero]
  split
  next h =>
    have hfloor : 0 ≤ ⌊q⌋ := Int.floor_nonneg.mpr h
    omega
  next h =>
    have hceil : ⌈q⌉ ≤ 0 := Int.ceil_le.mpr (by exact_mod_cast le_of_not_ge h)
    omega

omit [IsStrictOrderedRing α] in
/-- Rounding to the nearest chooses a neighbour. -/
theorem toEven_mem (q : α) : toEven q = ⌊q⌋ ∨ toEven q = ⌈q⌉ := by
  rw [toEven]
  split
  · exact .inl rfl
  · exact .inr rfl

end SmlnjCfg.Rounding
