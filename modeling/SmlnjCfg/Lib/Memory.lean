import Mathlib.Data.Nat.ModEq
import Mathlib.Tactic.Ring

/-!
# `SmlnjCfg.Lib.Memory`: a byte-addressed little-endian memory

A memory is a total function from addresses to bytes. `Mem.read m a n`
is the little-endian number in the `n` bytes from `a`, and
`Mem.write m a n v` puts the low `n` bytes of `v` there. The theorems:

* `Mem.read_write_self`: reading back what was written gives the value
  modulo `256 ^ n`.
* `Mem.read_write_of_disjoint`: a write leaves every disjoint range alone.
* `Mem.read_congr`: a read depends on its own range only.
* `Mem.write_of_spares`: a write that spares a set of addresses changes no byte of it.

Nothing here knows what the memory holds. Addresses are natural numbers,
so a range never wraps; a client that computes addresses in a machine
word turns them into naturals first.
-/

set_option autoImplicit false

namespace SmlnjCfg

/-- A byte, with the arithmetic of 8 bits. -/
abbrev Byte := BitVec 8

/-- A 64-bit machine word, which also serves as an address. -/
abbrev Word := BitVec 64

/-- A byte-addressed memory. It is total: what is mapped is the client's concern. -/
abbrev Mem := Nat → Byte

namespace Mem

/-- The little-endian number in the `n` bytes from address `a`: the first byte is the lowest
digit. -/
def read (m : Mem) (a : Nat) : Nat → Nat
  | 0 => 0
  | n + 1 => (m a).toNat + 256 * read m (a + 1) n

/-- The memory after the low `n` bytes of `v` are written from `a`. All other bytes stay the
same. -/
def write (m : Mem) (a n v : Nat) : Mem := fun i =>
  if a ≤ i ∧ i < a + n then BitVec.ofNat 8 (v / 256 ^ (i - a)) else m i

/-- No byte is the number zero. -/
@[simp] theorem read_zero (m : Mem) (a : Nat) : read m a 0 = 0 := rfl

/-- The first byte and the number in the others. -/
theorem read_succ (m : Mem) (a n : Nat) :
    read m a (n + 1) = (m a).toNat + 256 * read m (a + 1) n := rfl

/-- A byte outside the written range keeps its value: the frame property of a single byte. -/
theorem write_of_not_mem {m : Mem} {a n v i : Nat} (h : i < a ∨ a + n ≤ i) :
    write m a n v i = m i := by
  unfold write
  rw [if_neg (by omega)]

/-- A byte inside the written range holds its digit of the value. -/
theorem write_of_mem {m : Mem} {a n v i : Nat} (h : a ≤ i ∧ i < a + n) :
    write m a n v i = BitVec.ofNat 8 (v / 256 ^ (i - a)) := if_pos h

/-- Two memories that agree on a range read the same number from it, so a frame property of bytes
is one of numbers. -/
theorem read_congr {m m' : Mem} {a n : Nat} (h : ∀ i, a ≤ i → i < a + n → m i = m' i) :
    read m a n = read m' a n := by
  induction n generalizing a with
  | zero => rfl
  | succ n ih =>
      rw [read_succ, read_succ, h a (by omega) (by omega),
        ih fun i h1 h2 => h i (by omega) (by omega)]

/-- A write leaves a disjoint range alone. The ranges are given by their ends, so touching ones
are disjoint. -/
theorem read_write_of_disjoint {m : Mem} {a n v b k : Nat} (h : b + k ≤ a ∨ a + n ≤ b) :
    read (write m a n v) b k = read m b k :=
  read_congr fun i h1 h2 => write_of_not_mem (by omega)

/-! ### Sets of addresses -/

/-- Every address of a range is in the set `p`. It is a test, so that a machine can make it. -/
def within (p : Nat → Bool) (a : Nat) : Nat → Bool
  | 0 => true
  | n + 1 => p a && within p (a + 1) n

/-- No address of a range is in the set `p`: all of them are in its complement. -/
def spares (p : Nat → Bool) (a n : Nat) : Bool := within (fun i => !p i) a n

/-- What the test says about each address of the range. -/
theorem within_iff {p : Nat → Bool} {a n : Nat} :
    within p a n = true ↔ ∀ i, a ≤ i → i < a + n → p i = true := by
  induction n generalizing a with
  | zero =>
      simp only [within, true_iff]
      intro i hlo hhi
      omega
  | succ n ih =>
      rw [within, Bool.and_eq_true, ih]
      constructor
      · rintro ⟨ha, hrest⟩ i hlo hhi
        by_cases hi : i = a
        · exact hi ▸ ha
        · exact hrest i (by omega) (by omega)
      · intro h
        exact ⟨h a (Nat.le_refl _) (by omega), fun i hlo hhi => h i (by omega) (by omega)⟩

/-- A write that spares a set changes no byte of it. -/
theorem write_of_spares {p : Nat → Bool} {m : Mem} {a n v i : Nat} (h : spares p a n = true)
    (hi : p i = true) : write m a n v i = m i := by
  refine write_of_not_mem ?_
  by_contra hmem
  have hnot := within_iff.mp h i (by omega) (by omega)
  rw [hi] at hnot
  cases hnot

/-- A range that is in a set and one that spares it do not meet. -/
theorem disjoint_of_spares {p : Nat → Bool} {a n b k : Nat} (hn : within p a n = true)
    (hk : spares p b k = true) (hpos : 0 < n) (hpos' : 0 < k) : a + n ≤ b ∨ b + k ≤ a := by
  by_contra hmeet
  -- the greater of the two starts is in both ranges
  have hin := within_iff.mp hn (max a b) (by omega) (by omega)
  have hout := within_iff.mp hk (max a b) (by omega) (by omega)
  simp [hin] at hout

/-- The bytes of `v` from digit `k` on, read back as a number. -/
private theorem read_write_aux (m : Mem) (a N v n k : Nat) (h : k + n = N) :
    read (write m a N v) (a + k) n = v / 256 ^ k % 256 ^ n := by
  induction n generalizing k with
  | zero => rw [read_zero, Nat.pow_zero, Nat.mod_one]
  | succ n ih =>
      rw [read_succ, write_of_mem (by omega), Nat.add_sub_cancel_left, Nat.add_assoc,
        ih (k + 1) (by omega), BitVec.toNat_ofNat, Nat.pow_succ (n := 256) (m := k),
        ← Nat.div_div_eq_div_mul, Nat.pow_succ (n := 256) (m := n),
        Nat.mul_comm (256 ^ n) 256, Nat.mod_mul]

/-- Reading back a written range gives the value modulo `256 ^ n`. -/
theorem read_write_self (m : Mem) (a n v : Nat) :
    read (write m a n v) a n = v % 256 ^ n := by
  have h := read_write_aux m a n v n 0 (by omega)
  rwa [Nat.add_zero, Nat.pow_zero, Nat.div_one] at h

/-- A read of a `64`-bit word just stored gives the word back. -/
@[simp] theorem read_write_word (m : Mem) (a : Nat) (w : Word) :
    read (write m a 8 w.toNat) a 8 = w.toNat := by
  rw [read_write_self]
  exact Nat.mod_eq_of_lt w.isLt

end Mem

end SmlnjCfg
