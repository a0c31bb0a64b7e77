import Mathlib.Algebra.Group.Int.Defs
import Mathlib.Algebra.Group.Nat.Defs
import Mathlib.Data.Nat.Size
import Mathlib.Tactic.SplitIfs

/-!
# `SmlnjCfg.Lib.Bits`: bit vectors as integers modulo a power of two

What the operations of a machine word compute, as operations on the numbers
that the bits stand for: the result of each is the mathematical one, reduced
to the width. Counting bits and rotating are included, and the tests for
signed overflow: they say whether the mathematical result fits.
-/

set_option autoImplicit false

namespace SmlnjCfg.Bits

variable {n : Nat}

/-- Setting bits adds at most their value: where both numbers have a bit, it counts once. -/
theorem or_le_add (a b : Nat) : a ||| b ≤ a + b := by
  induction a using Nat.strongRecOn generalizing b with
  | ind a ih =>
      cases a with
      | zero => simp
      | succ a =>
          -- the last bits, and the others
          have hrec := ih ((a + 1) / 2) (by omega) (b / 2)
          have hdiv : ((a + 1) ||| b) / 2 = (a + 1) / 2 ||| b / 2 := Nat.or_div_two
          have hmod : ((a + 1) ||| b) % 2 = 1 ↔ (a + 1) % 2 = 1 ∨ b % 2 = 1 :=
            Nat.or_mod_two_eq_one
          omega

/-! ### Arithmetic -/

/-- A difference that is negative wraps around to the word that stands for it. -/
theorem sub_eq_ofInt (x y : BitVec n) : x - y = BitVec.ofInt n (x.toNat - y.toNat) := by
  rw [Int.sub_eq_add_neg, BitVec.ofInt_add, BitVec.ofInt_neg, BitVec.sub_eq_add_neg]
  simp

/-- Division of signed words rounds toward zero, as the truncating division of integers does. The
quotient of the least number by `-1` wraps around to the least number. -/
theorem sdiv_eq_ofInt (x y : BitVec n) : x.sdiv y = BitVec.ofInt n (x.toInt.tdiv y.toInt) := by
  apply BitVec.eq_of_toInt_eq
  rw [BitVec.toInt_sdiv, BitVec.toInt_ofInt]

/-- The remainder that goes with it has the sign of the dividend. -/
theorem srem_eq_ofInt (x y : BitVec n) : x.srem y = BitVec.ofInt n (x.toInt.tmod y.toInt) := by
  rw [← BitVec.toInt_srem, BitVec.ofInt_toInt]

/-- A number that fits is the number of a bit vector. -/
theorem eq_ofInt_of_toNat {x : BitVec n} {m : Nat} (h : x.toNat = m) : x = BitVec.ofInt n m := by
  rw [BitVec.ofInt_natCast, ← h, BitVec.ofNat_toNat, BitVec.setWidth_eq]

/-- Division of unsigned words is that of the numbers, and the quotient always fits. -/
theorem udiv_eq_ofInt (x y : BitVec n) : x / y = BitVec.ofInt n (x.toNat / y.toNat : Nat) :=
  eq_ofInt_of_toNat BitVec.toNat_udiv

/-- So is the remainder. -/
theorem umod_eq_ofInt (x y : BitVec n) : x % y = BitVec.ofInt n (x.toNat % y.toNat : Nat) :=
  eq_ofInt_of_toNat BitVec.toNat_umod

/-! ### Shifts and rotations -/

/-- A shift to the left multiplies, and what is shifted out is lost. -/
theorem shiftLeft_eq_ofInt (x : BitVec n) (k : Nat) :
    x <<< k = BitVec.ofInt n (x.toNat * 2 ^ k : Nat) := by
  apply BitVec.eq_of_toNat_eq
  rw [BitVec.toNat_shiftLeft, Nat.shiftLeft_eq, BitVec.ofInt_natCast, BitVec.toNat_ofNat]

/-- A logical shift to the right divides the unsigned number. -/
theorem ushiftRight_eq_ofInt (x : BitVec n) (k : Nat) :
    x >>> k = BitVec.ofInt n (x.toNat / 2 ^ k : Nat) := by
  apply eq_ofInt_of_toNat
  rw [BitVec.toNat_ushiftRight, Nat.shiftRight_eq_div_pow]

/-- An arithmetic shift to the right divides the signed number and rounds down. -/
theorem sshiftRight_eq_ofInt (x : BitVec n) (k : Nat) :
    x.sshiftRight k = BitVec.ofInt n (x.toInt / (2 ^ k : Nat)) := by
  rw [← Int.shiftRight_eq_div_pow, ← BitVec.toInt_sshiftRight, BitVec.ofInt_toInt]

/-- A rotation to the left by `k`: the high bits come in at the low end. The two parts have no bit
in common, so setting the bits of the one in the other is adding it. -/
theorem rotate_eq_ofInt (x : BitVec n) {k : Nat} (hk : k ≤ n) :
    x <<< k ||| x >>> (n - k)
      = BitVec.ofInt n (x.toNat * 2 ^ k + x.toNat / 2 ^ (n - k) : Nat) := by
  have hpow : 2 ^ n = 2 ^ k * 2 ^ (n - k) := by rw [← Nat.pow_add]; congr 1; omega
  have hhigh : x.toNat / 2 ^ (n - k) < 2 ^ k :=
    Nat.div_lt_of_lt_mul (by rw [Nat.mul_comm, ← hpow]; exact x.isLt)
  have hlow : x.toNat * 2 ^ k % 2 ^ n = 2 ^ k * (x.toNat % 2 ^ (n - k)) := by
    rw [hpow, Nat.mul_comm x.toNat, Nat.mul_mod_mul_left]
  have hlt : 2 ^ k * (x.toNat % 2 ^ (n - k)) + x.toNat / 2 ^ (n - k) < 2 ^ n := by
    have hle : x.toNat % 2 ^ (n - k) + 1 ≤ 2 ^ (n - k) := Nat.mod_lt _ (Nat.two_pow_pos _)
    calc 2 ^ k * (x.toNat % 2 ^ (n - k)) + x.toNat / 2 ^ (n - k)
        < 2 ^ k * (x.toNat % 2 ^ (n - k)) + 2 ^ k := Nat.add_lt_add_left hhigh _
      _ = 2 ^ k * (x.toNat % 2 ^ (n - k) + 1) := (Nat.mul_succ _ _).symm
      _ ≤ 2 ^ k * 2 ^ (n - k) := Nat.mul_le_mul_left _ hle
      _ = 2 ^ n := hpow.symm
  apply BitVec.eq_of_toNat_eq
  calc (x <<< k ||| x >>> (n - k)).toNat
      = x.toNat * 2 ^ k % 2 ^ n ||| x.toNat / 2 ^ (n - k) := by
        rw [BitVec.toNat_or, BitVec.toNat_shiftLeft, BitVec.toNat_ushiftRight,
          Nat.shiftLeft_eq, Nat.shiftRight_eq_div_pow]
    _ = 2 ^ k * (x.toNat % 2 ^ (n - k)) + x.toNat / 2 ^ (n - k) := by
        rw [hlow, Nat.two_pow_add_eq_or_of_lt hhigh]
    _ = (x.toNat * 2 ^ k + x.toNat / 2 ^ (n - k)) % 2 ^ n := by
        rw [← Nat.mod_add_mod, hlow, Nat.mod_eq_of_lt hlt]
    _ = (BitVec.ofInt n (x.toNat * 2 ^ k + x.toNat / 2 ^ (n - k) : Nat)).toNat := by
        rw [BitVec.ofInt_natCast, BitVec.toNat_ofNat]

/-! ### Counting bits -/

/-- The population count from bit `k` down, which is how the library computes it. -/
theorem cpopNatRec_eq_countP (x : BitVec n) (k : Nat) :
    x.cpopNatRec k 0 = (List.range k).countP x.getLsbD := by
  induction k with
  | zero => rfl
  | succ k ih =>
      rw [BitVec.cpopNatRec_succ, BitVec.cpopNatRec_eq, ih, List.range_succ, List.countP_append]
      cases hb : x.getLsbD k <;> simp [hb]

/-- The population count is the number of positions with a bit. -/
theorem cpop_eq_ofInt (x : BitVec n) :
    x.cpop = BitVec.ofInt n ((List.range n).countP x.getLsbD : Nat) := by
  rw [BitVec.ofInt_natCast, ← cpopNatRec_eq_countP]
  rfl

/-- The first of `n` positions that has a property, or `n`. Both counts of zeros end at such a
position, from below or from above. -/
theorem findIdx_range_eq {p : Nat → Bool} {m : Nat} (hle : m ≤ n) (hbelow : ∀ i < m, p i = false)
    (hat : m < n → p m = true) : (List.range n).findIdx p = m := by
  rcases Nat.lt_or_eq_of_le hle with hlt | rfl
  · rw [List.findIdx_eq (by simpa using hlt)]
    refine ⟨by simpa using hat hlt, fun j hj => ?_⟩
    simpa using hbelow j hj
  · have hlen : (List.range m).findIdx p = (List.range m).length := by
      rw [List.findIdx_eq_length]
      intro i hi
      exact hbelow i (List.mem_range.mp hi)
    rw [hlen, List.length_range]

/-- The zero word has as many trailing zeros as it has bits. -/
theorem ctz_zero : (0#n).ctz = BitVec.ofNat n n := by
  rw [BitVec.ctz_eq_reverse_clz]
  exact BitVec.clz_eq_iff_eq_zero.mpr (BitVec.reverse_eq_zero_iff.mpr rfl)

/-- No word has more. -/
theorem toNat_ctz_le (x : BitVec n) : x.ctz.toNat ≤ n := by
  have h : x.ctz ≤ BitVec.ofNat n n := by
    rw [BitVec.ctz_eq_reverse_clz]
    exact BitVec.clz_le
  simpa [BitVec.le_def] using h

/-- The number of trailing zeros is the position of the lowest bit. -/
theorem ctz_eq_ofInt (x : BitVec n) :
    x.ctz = BitVec.ofInt n ((List.range n).findIdx x.getLsbD : Nat) := by
  apply eq_ofInt_of_toNat
  refine (findIdx_range_eq (toNat_ctz_le x) (fun i hi => BitVec.getLsbD_false_of_lt_ctz hi)
    fun hlt => BitVec.getLsbD_true_ctz_of_ne_zero fun hx => ?_).symm
  subst hx
  rw [ctz_zero] at hlt
  simp at hlt

/-- The number of leading zeros is the position of the highest bit, counted from the top. -/
theorem clz_eq_ofInt (x : BitVec n) :
    x.clz = BitVec.ofInt n ((List.range n).findIdx x.getMsbD : Nat) := by
  have hrev : x.getMsbD = x.reverse.getLsbD := by
    funext i
    rw [BitVec.getLsbD_reverse]
  rw [hrev, BitVec.clz_eq_reverse_ctz, ctz_eq_ofInt]

/-! ### Signed overflow -/

/-- The number fits a signed word of `n` bits: it is not below the least one and not above the
greatest. -/
def Fits (n : Nat) (r : Int) : Prop := -2 ^ (n - 1) ≤ r ∧ r < 2 ^ (n - 1)

instance (n : Nat) (r : Int) : Decidable (Fits n r) := inferInstanceAs (Decidable (_ ∧ _))

/-- What a word stands for fits, of course. -/
theorem fits_toInt (x : BitVec n) : Fits n x.toInt := ⟨BitVec.le_toInt x, BitVec.toInt_lt⟩

/-- The overflow flag of an addition tells whether the sum fits. -/
theorem saddOverflow_iff (x y : BitVec n) :
    BitVec.saddOverflow x y = true ↔ ¬ Fits n (x.toInt + y.toInt) := by
  simp only [BitVec.saddOverflow, Fits, Bool.or_eq_true, decide_eq_true_eq]
  omega

/-- That of a subtraction tells the same of the difference. -/
theorem ssubOverflow_iff (x y : BitVec n) :
    BitVec.ssubOverflow x y = true ↔ ¬ Fits n (x.toInt - y.toInt) := by
  simp only [BitVec.ssubOverflow, Fits, Bool.or_eq_true, decide_eq_true_eq]
  omega

/-- And that of a multiplication tells it of the product. -/
theorem smulOverflow_iff (x y : BitVec n) :
    BitVec.smulOverflow x y = true ↔ ¬ Fits n (x.toInt * y.toInt) := by
  simp only [BitVec.smulOverflow, Fits, Bool.or_eq_true, decide_eq_true_eq]
  omega

/-- Only the quotient of the least number by `-1` does not fit. There is no flag for it: where a
machine divides, it is undefined or traps. -/
theorem sdivOverflow_iff (hn : 0 < n) (x y : BitVec n) :
    BitVec.sdivOverflow x y = true ↔ x.toInt = -2 ^ (n - 1) ∧ y.toInt = -1 := by
  simp only [BitVec.sdivOverflow_eq, Bool.and_eq_true, decide_eq_true_eq, ← BitVec.toInt_inj,
    BitVec.toInt_intMin_of_pos hn, BitVec.toInt_allOnes, if_pos hn]
  exact ⟨fun h => ⟨h.1.2, h.2⟩, fun h => ⟨⟨by omega, h.1⟩, h.2⟩⟩

/-- Every other quotient is exact. -/
theorem toInt_sdiv_of_not_overflow {x y : BitVec n} (hn : 0 < n)
    (h : ¬ (x.toInt = -2 ^ (n - 1) ∧ y.toInt = -1)) :
    (x.sdiv y).toInt = x.toInt.tdiv y.toInt := by
  apply BitVec.toInt_sdiv_of_ne_or_ne
  rw [ne_eq, ne_eq, ← Decidable.not_and_iff_or_not]
  rintro ⟨rfl, rfl⟩
  refine h ⟨BitVec.toInt_intMin_of_pos hn, ?_⟩
  rw [BitVec.neg_one_eq_allOnes, BitVec.toInt_allOnes, if_pos hn]

end SmlnjCfg.Bits
