import Mathlib.Data.Nat.Bitwise

/-!
# `SmlnjCfg.Lib.Arena`: bump allocation with alignments

A cursor moves up through an arena: a request rounds it up to its own
alignment, and then leaves room for the size, which is rounded up as well. A
client that knows an alignment `A` of all requests in advance reserves for each
of them its size rounded up to `A`. `bump_le_budget` says that the cursor stays
below what is reserved, whatever the alignments of the requests are.
-/

set_option autoImplicit false

namespace SmlnjCfg

/-- The first multiple of `a` from `n` on, as the usual formula computes it. -/
def alignUp (n a : Nat) : Nat := (n + (a - 1)) / a * a

variable {n a b : Nat}

/-- The result is a multiple, whatever `a` is. -/
theorem dvd_alignUp (n a : Nat) : a ∣ alignUp n a := Nat.dvd_mul_left a _

/-- Rounding goes up. -/
theorem le_alignUp (ha : 0 < a) : n ≤ alignUp n a := by
  have hdiv := Nat.div_add_mod' (n + (a - 1)) a
  have hmod := Nat.mod_lt (n + (a - 1)) ha
  rw [alignUp]
  omega

/-- Less than one alignment is added, which is what the padding of an array has to allow for. -/
theorem alignUp_lt (ha : 0 < a) : alignUp n a < n + a := by
  have hdiv := Nat.div_mul_le_self (n + (a - 1)) a
  rw [alignUp]
  omega

/-- There is no earlier multiple, so a bound that is a multiple itself is kept. -/
theorem alignUp_le (hn : n ≤ b) (hb : a ∣ b) : alignUp n a ≤ b := by
  obtain ⟨k, rfl⟩ := hb
  rw [alignUp, Nat.mul_comm a k]
  by_cases ha : a = 0
  · simp [ha]
  · have hlt : (n + (a - 1)) / a < k + 1 := by
      rw [Nat.div_lt_iff_lt_mul (Nat.pos_of_ne_zero ha), Nat.add_mul, Nat.one_mul,
        Nat.mul_comm k a]
      omega
    exact Nat.mul_le_mul_right a (Nat.le_of_lt_succ hlt)

/-- A coarser alignment rounds further: the multiple of it is one of the finer alignment, too. -/
theorem alignUp_le_alignUp (hb : 0 < b) (hab : a ∣ b) : alignUp n a ≤ alignUp n b :=
  alignUp_le (le_alignUp hb) (Nat.dvd_trans hab (dvd_alignUp n b))

/-- The cursor stays below the reserved budget, which is a multiple of the
alignment `A` that was known in advance. -/
theorem bump_le_budget {off used A : Nat} (size : Nat) (hA : 0 < A) (ha : a ∣ A)
    (hoff : off ≤ used) (hused : A ∣ used) :
    alignUp off a + alignUp size a ≤ used + alignUp size A :=
  Nat.add_le_add (alignUp_le hoff (Nat.dvd_trans ha hused)) (alignUp_le_alignUp hA ha)

/-- Clearing the low `k` bits of a word of `w` bits rounds it down. The mask is the complement
that `~(a - 1)` computes for a power of two. -/
theorem land_high_mask {x w k : Nat} (hx : x < 2 ^ w) (hk : k ≤ w) :
    x &&& (2 ^ w - 1 - (2 ^ k - 1)) = x / 2 ^ k * 2 ^ k := by
  have hpow := Nat.pow_le_pow_right (n := 2) (by decide) hk
  have hpos := Nat.two_pow_pos k
  have hmask : 2 ^ w - 1 - (2 ^ k - 1) = 2 ^ w - (2 ^ k - 1 + 1) := by omega
  have hle : 2 ^ k - 1 < 2 ^ w := by omega
  apply Nat.eq_of_testBit_eq
  intro i
  rw [Nat.testBit_and, Nat.testBit_mul_two_pow, Nat.testBit_div_two_pow, hmask,
    Nat.testBit_two_pow_sub_succ hle, Nat.testBit_two_pow_sub_one]
  by_cases hi : i < w
  · by_cases hki : k ≤ i
    · have hnot : ¬ i < k := by omega
      simp [hi, hki, hnot]
    · have hlt : i < k := by omega
      simp [hki, hlt]
  · -- the word has no bit there
    have hbit : x.testBit i = false :=
      Nat.testBit_lt_two_pow (Nat.lt_of_lt_of_le hx (Nat.pow_le_pow_right (by decide) (by omega)))
    have hki : k ≤ i := by omega
    simp [hbit, hki]

end SmlnjCfg
