import Mathlib.Data.Int.Bitwise
import Mathlib.Data.Nat.Bitwise
import Mathlib.Algebra.Order.BigOperators.Group.List

/-!
# `SmlnjCfg.Lib.Layout`: naturally aligned fields, one after the other

`Placed start szs offs e` says that fields of the sizes `szs` lie at the
offsets `offs`, each at a multiple of its own size and as early as that
allows, and that the last one ends at `e`.

* `land_mask`, `land_not_mask`, `or_mask`: the bit masks that align an offset.
* `next_multiple`: the next aligned address behind a header.
* `Placed.inside`, `Placed.pairwise`: no field overlaps another one or
  leaves the object.
-/

set_option autoImplicit false

namespace SmlnjCfg

/-! ### Bit masks -/

/-- The low bits of a number. -/
theorem land_mask (m k : Nat) : Int.land m (2 ^ k - 1) = (m % 2 ^ k : Nat) := by
  have hk : (2 ^ k - 1 : Int) = ((2 ^ k - 1 : Nat) : Int) := by
    rw [Nat.cast_sub Nat.one_le_two_pow]
    simp
  rw [hk]
  show ((m &&& (2 ^ k - 1) : Nat) : Int) = _
  rw [Nat.and_two_pow_sub_one_eq_mod]

/-- The other bits of a number. -/
theorem land_not_mask (m k : Nat) :
    Int.land m (Int.lnot (2 ^ k - 1)) = (m / 2 ^ k * 2 ^ k : Nat) := by
  have hk : (2 ^ k - 1 : Int) = ((2 ^ k - 1 : Nat) : Int) := by
    rw [Nat.cast_sub Nat.one_le_two_pow]
    simp
  rw [hk]
  show ((Nat.ldiff m (2 ^ k - 1) : Nat) : Int) = _
  congr 1
  apply Nat.eq_of_testBit_eq
  intro i
  rw [Nat.testBit_ldiff, Nat.testBit_two_pow_sub_one, Nat.testBit_mul_two_pow,
    Nat.testBit_div_two_pow]
  by_cases h : i < k
  · simp [h, Nat.not_le_of_lt h]
  · have hle : k ≤ i := Nat.le_of_not_lt h
    simp [h, hle]

/-- Setting the bits from `j` up to `k` of a multiple of `2 ^ j` leads to the last
multiple of `2 ^ j` below the next one of `2 ^ k`. -/
theorem or_mask {p j k : Nat} (hjk : j ≤ k) (hp : p % 2 ^ j = 0) :
    p ||| (2 ^ k - 2 ^ j) = p / 2 ^ k * 2 ^ k + (2 ^ k - 2 ^ j) := by
  have hmask : 2 ^ k - 2 ^ j = (2 ^ (k - j) - 1) * 2 ^ j := by
    rw [Nat.sub_mul, ← Nat.pow_add, Nat.sub_add_cancel hjk, Nat.one_mul]
  have hlt : 2 ^ k - 2 ^ j < 2 ^ k := Nat.sub_lt (Nat.two_pow_pos k) (Nat.two_pow_pos j)
  have hlow : p = p / 2 ^ j * 2 ^ j := by
    have := Nat.div_add_mod' p (2 ^ j)
    omega
  rw [Nat.mul_comm, Nat.two_pow_add_eq_or_of_lt hlt, Nat.mul_comm, hmask]
  apply Nat.eq_of_testBit_eq
  intro i
  rw [Nat.testBit_or, Nat.testBit_or, Nat.testBit_mul_two_pow, Nat.testBit_mul_two_pow,
    Nat.testBit_two_pow_sub_one, Nat.testBit_div_two_pow]
  by_cases hj : j ≤ i
  · by_cases hk : k ≤ i
    · have hout : ¬ i - j < k - j := by omega
      simp [hk, hout]
    · have hin : i - j < k - j := by omega
      simp [hj, hin]
  · -- Below `j` there is no bit on either side.
    have hbit : p.testBit i = false := by
      rw [hlow, Nat.testBit_mul_two_pow]
      simp [hj]
    have hk : ¬ k ≤ i := by omega
    simp [hj, hk, hbit]

/-- For a multiple `p` of `w`, the next multiple of `a` is the first one that leaves
room for `w` in front of it. -/
theorem next_multiple {p w a : Nat} (ha : 0 < a) (hwa : w ∣ a) (hwp : w ∣ p) :
    p + w ≤ (p / a + 1) * a ∧ ∀ x, p < x → a ∣ x → (p / a + 1) * a ≤ x := by
  have hdiv := Nat.div_add_mod' p a
  have hmod := Nat.mod_lt p ha
  have hlt : p < (p / a + 1) * a := by
    rw [Nat.add_mul, Nat.one_mul]
    omega
  constructor
  · obtain ⟨m, hm⟩ := hwp
    obtain ⟨n, hn⟩ := Nat.dvd_trans hwa (Nat.dvd_mul_left a (p / a + 1))
    rw [hn] at hlt ⊢
    rw [hm] at hlt ⊢
    have hmn : m < n := Nat.lt_of_mul_lt_mul_left hlt
    calc w * m + w = w * (m + 1) := (Nat.mul_succ w m).symm
      _ ≤ w * n := Nat.mul_le_mul_left w hmn
  · rintro x hx ⟨n, rfl⟩
    rw [Nat.mul_comm]
    refine Nat.mul_le_mul_left a ?_
    exact Nat.div_lt_of_lt_mul hx

/-! ### Fields one after the other -/

/-- Fields of the sizes `szs` from `start` on, at the offsets `offs`, of which
the last ends at `e`. -/
inductive Placed : Int → List Int → List Int → Int → Prop where
  | nil (start : Int) : Placed start [] [] start
  | cons {start off sz e : Int} {szs offs : List Int} (haligned : off % sz = 0)
      (hle : start ≤ off) (hpad : off < start + sz) (hrest : Placed (off + sz) szs offs e) :
      Placed start (sz :: szs) (off :: offs) e

namespace Placed

variable {start e : Int} {szs offs : List Int}

/-- The end comes after the start, by at least the sizes. -/
theorem add_sum_le (h : Placed start szs offs e) : start + szs.sum ≤ e := by
  induction h with
  | nil => simp
  | cons _ hle _ _ ih =>
      rw [List.sum_cons]
      omega

/-- Every field lies between the start and the end. -/
theorem inside (h : Placed start szs offs e) (hpos : ∀ sz ∈ szs, 0 < sz) :
    ∀ p ∈ offs.zip szs, start ≤ p.1 ∧ p.1 + p.2 ≤ e := by
  induction h with
  | nil => simp
  | @cons start off sz e szs offs _ hle _ hrest ih =>
      obtain ⟨hsz, hpos⟩ := List.forall_mem_cons.mp hpos
      have hsum : 0 ≤ szs.sum := List.sum_nonneg fun x hx => Int.le_of_lt (hpos x hx)
      have hend := hrest.add_sum_le
      rw [List.zip_cons_cons, List.forall_mem_cons]
      refine ⟨⟨hle, by show off + sz ≤ e; omega⟩, fun p hp => ?_⟩
      have := ih hpos p hp
      omega

/-- An earlier field ends before a later one starts. -/
theorem pairwise (h : Placed start szs offs e) (hpos : ∀ sz ∈ szs, 0 < sz) :
    (offs.zip szs).Pairwise fun p q => p.1 + p.2 ≤ q.1 := by
  induction h with
  | nil => exact List.Pairwise.nil
  | cons _ _ _ hrest ih =>
      obtain ⟨-, hpos⟩ := List.forall_mem_cons.mp hpos
      exact List.pairwise_cons.mpr ⟨fun p hp => (hrest.inside hpos p hp).1, ih hpos⟩

end Placed

end SmlnjCfg
