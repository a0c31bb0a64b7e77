import SmlnjCfg.Asdl.Integer

/-!
# `SmlnjCfg.Asdl.Convert`: integers from and to machine words

The constructors of `asdl::integer` and its conversions to words of fixed
width. `Source` is a way to obtain an integer, and `Source.val` the number it
stands for. The theorems:

* `right_iff`: which conversions give the number exactly if it fits.
* `MachineInt.noOverflow_iff`: which machine integers survive the way there and back without a
  signed operation that overflows.
-/

set_option autoImplicit false

namespace SmlnjCfg.Asdl

namespace Integer

/-! ### The constructors -/

/-- `integer ()`: one digit, which is zero. -/
def default : Integer := ⟨false, [0]⟩

/-- `integer (uint32_t)`. -/
def ofUInt32 (n : BitVec 32) : Integer := ⟨false, if n ≠ 0 then [n] else []⟩

/-- `integer (int32_t)`: `abs` is taken modulo `2 ^ 32`. -/
def ofInt32 (n : BitVec 32) : Integer := ⟨n.slt 0, if n ≠ 0 then [n.abs] else []⟩

/-- The digits that the 64-bit constructors push for a number that is not zero. -/
def pushDigits (ui : BitVec 64) : List (BitVec 32) :=
  if ui.toNat < 0x100000000 then [ui.setWidth 32]
  else [(ui >>> 32).setWidth 32, ui.setWidth 32]

/-- `integer (uint64_t)`. -/
def ofUInt64 (n : BitVec 64) : Integer := ⟨false, if n ≠ 0 then pushDigits n else []⟩

/-- `integer (int64_t)`: `abs` is taken modulo `2 ^ 64`. -/
def ofInt64 (n : BitVec 64) : Integer := ⟨n.slt 0, if n ≠ 0 then pushDigits n.abs else []⟩

/-! ### The 32-bit conversions -/

/-- `toInt32`; `none` where it reports that the value does not fit. The machine
negation is taken modulo `2 ^ 32`. -/
def toInt32 (n : Integer) : Option (BitVec 32) :=
  match n.digits with
  | [] => some 0
  | [d] =>
      if n.sign then if d.toNat ≤ 0x80000000 then some (-d) else none
      else if d.toNat < 0x80000000 then some d else none
  | _ => none

/-- `toUInt32`; `none` where it reports that the value does not fit. -/
def toUInt32 (n : Integer) : Option (BitVec 32) :=
  match n.digits with
  | [] => some 0
  | [d] => some d
  | _ => none

end Integer

open Integer

/-- A way to obtain an integer: a constructor, or the bytes to decode. -/
inductive Source where
  | default
  | uint32 (n : BitVec 32)
  | int32 (n : BitVec 32)
  | uint64 (n : BitVec 64)
  | int64 (n : BitVec 64)
  | bytes (b : Byte) (bs : List Byte) (h : Continues b bs)

namespace Source

/-- The integer that is built or read. -/
def build : Source → Except ReadError Integer
  | default => .ok Integer.default
  | uint32 n => .ok (ofUInt32 n)
  | int32 n => .ok (ofInt32 n)
  | uint64 n => .ok (ofUInt64 n)
  | int64 n => .ok (ofInt64 n)
  | bytes b bs _ => (readInteger.run (place (b :: bs))).map Prod.fst

/-- The number that is built or encoded. -/
def val : Source → Int
  | default => 0
  | uint32 n => n.toNat
  | int32 n => n.toInt
  | uint64 n => n.toNat
  | int64 n => n.toInt
  | bytes b bs _ => if b &&& 0x40 ≠ 0 then -bytesVal b bs else bytesVal b bs

/-- Encodings have no group that the number does not need: all but the last
further group leave less than half of the number. -/
def Canonical : Source → Prop
  | bytes b bs _ => bs = [] ∨ 2 ^ (bs.length * 7) ≤ 2 * bytesVal b bs
  | _ => True

/-- The sign that the number has, or the sign bit of the encoding. -/
def sign : Source → Bool
  | bytes b _ _ => b &&& 0x40 ≠ 0
  | s => s.val < 0

/-- The number of digits: one for the default constructor, as many as the
number needs for the others, and for an encoding as many as hold seven bits
for each further byte and the significant bits of the first. -/
def numDigits : Source → Nat
  | default => 1
  | bytes b bs _ => (bs.length * 7 + firstBits (b &&& 0x3f) + 31) / 32
  | s => (Nat.size s.val.natAbs + 31) / 32

end Source

/-! ### What is built -/

/-- The leading digit weighs as much as all positions after it. -/
theorem digitsVal_cons (d : BitVec 32) (ds : List (BitVec 32)) :
    digitsVal (d :: ds) = d.toNat * 2 ^ (32 * ds.length) + digitsVal ds := by
  induction ds using List.reverseRecOn with
  | nil => simp [digitsVal]
  | append_singleton ds e ih =>
      rw [← List.cons_append, digitsVal_append, digitsVal_append, ih, List.length_append,
        List.length_singleton, Nat.mul_add, Nat.pow_add]
      ring

/-- The value of one digit. -/
theorem digitsVal_one (d : BitVec 32) : digitsVal [d] = d.toNat := by
  simp [digitsVal]

/-- The value of two digits. -/
theorem digitsVal_two (d e : BitVec 32) : digitsVal [d, e] = d.toNat * 2 ^ 32 + e.toNat := by
  simp [digitsVal]

/-- The digits that a 32-bit constructor pushes denote the number, and there are
no more than it needs. -/
theorem digits32_spec (n : BitVec 32) :
    digitsVal (if n ≠ 0 then [n] else []) = n.toNat ∧
      (if n ≠ 0 then [n] else []).length = (Nat.size n.toNat + 31) / 32 := by
  by_cases h : n = 0
  · rw [h]
    decide
  · have hpos : 0 < n.toNat := Nat.pos_of_ne_zero fun h0 => h (BitVec.eq_of_toNat_eq h0)
    have hsize : 0 < Nat.size n.toNat := Nat.size_pos.mpr hpos
    have hsize' : Nat.size n.toNat ≤ 32 := Nat.size_le.mpr n.isLt
    rw [if_pos h]
    refine ⟨digitsVal_one n, ?_⟩
    rw [List.length_singleton]
    omega

/-- The digits that a 64-bit constructor pushes denote the number, and there are
no more than it needs. -/
theorem digits64_spec (n : BitVec 64) :
    digitsVal (if n ≠ 0 then pushDigits n else []) = n.toNat ∧
      (if n ≠ 0 then pushDigits n else []).length = (Nat.size n.toNat + 31) / 32 := by
  by_cases h : n = 0
  · rw [h]
    decide
  · have hpos : 0 < n.toNat := Nat.pos_of_ne_zero fun h0 => h (BitVec.eq_of_toNat_eq h0)
    have hlt : n.toNat < 2 ^ 64 := n.isLt
    rw [if_pos h, pushDigits]
    by_cases h32 : n.toNat < 0x100000000
    · -- One digit holds the number.
      have hsize : 0 < Nat.size n.toNat := Nat.size_pos.mpr hpos
      have hsize' : Nat.size n.toNat ≤ 32 := Nat.size_le.mpr (by simpa using h32)
      rw [if_pos h32]
      refine ⟨?_, ?_⟩
      · rw [digitsVal_one, BitVec.toNat_setWidth, Nat.mod_eq_of_lt (by simpa using h32)]
      · rw [List.length_singleton]
        omega
    · have hsize : 32 < Nat.size n.toNat := Nat.lt_size.mpr (by simpa using h32)
      have hsize' : Nat.size n.toNat ≤ 64 := Nat.size_le.mpr hlt
      rw [if_neg h32]
      refine ⟨?_, ?_⟩
      · rw [digitsVal_two, BitVec.toNat_setWidth, BitVec.toNat_setWidth, BitVec.toNat_ushiftRight,
          Nat.shiftRight_eq_div_pow, Nat.mod_eq_of_lt (a := n.toNat / 2 ^ 32) (by omega)]
        omega
      · show 2 = _
        omega

/-- The machine's absolute value is the magnitude, also of the least number. -/
theorem toNat_abs {w : Nat} (n : BitVec w) : n.abs.toNat = n.toInt.natAbs := by
  rw [BitVec.abs_eq]
  by_cases hm : n.msb = true
  · rw [if_pos hm, BitVec.toInt_eq_msb_cond, if_pos hm, BitVec.toNat_neg]
    have hlt := n.isLt
    have hle : 2 ^ w ≤ 2 * n.toNat := BitVec.msb_eq_true_iff_two_mul_ge.mp hm
    rw [Nat.mod_eq_of_lt (by omega)]
    omega
  · rw [if_neg hm, BitVec.toInt_eq_msb_cond, if_neg hm]
    rfl

/-- Only zero has the magnitude zero. -/
theorem abs_ne_zero {w : Nat} (n : BitVec w) : n ≠ 0 ↔ n.abs ≠ 0 := by
  refine not_congr ⟨fun h => ?_, fun h => ?_⟩
  · refine BitVec.eq_of_toNat_eq ?_
    rw [toNat_abs, h]
    simp
  · have habs := toNat_abs n
    rw [h, BitVec.ofNat_eq_ofNat, BitVec.toNat_ofNat, Nat.zero_mod] at habs
    refine BitVec.eq_of_toInt_eq ?_
    rw [BitVec.ofNat_eq_ofNat, BitVec.toInt_zero]
    omega

/-- The sign test of the signed constructors. -/
theorem slt_zero {w : Nat} (n : BitVec w) : n.slt 0 = decide (n.toInt < 0) := by
  rw [BitVec.slt_eq_decide, BitVec.ofNat_eq_ofNat, BitVec.toInt_zero]

/-- A sign and digits of the magnitude denote the number. -/
theorem toInt_mk {sign : Bool} {ds : List (BitVec 32)} {v : Int} (hsign : sign = decide (v < 0))
    (hds : digitsVal ds = v.natAbs) : (⟨sign, ds⟩ : Integer).toInt = v := by
  rw [toInt, hsign, hds]
  simp only [decide_eq_true_eq]
  split
  · omega
  · omega

/-- A number that is not negative has no sign. -/
theorem false_eq_decide_natCast (n : Nat) : false = decide ((n : Int) < 0) := by
  rw [eq_comm, decide_eq_false_iff_not]
  omega

/-- An integer is built, and it denotes its number with the sign and the number
of digits of its source. -/
theorem Source.build_spec (s : Source) :
    ∃ n : Integer, s.build = .ok n ∧ n.toInt = s.val ∧ n.sign = s.sign ∧
      n.digits.length = s.numDigits := by
  cases s with
  | default => exact ⟨_, rfl, by decide, by decide, rfl⟩
  | uint32 n =>
      obtain ⟨hval, hlen⟩ := digits32_spec n
      exact ⟨_, rfl, toInt_mk (false_eq_decide_natCast _) hval,
        false_eq_decide_natCast n.toNat, hlen⟩
  | uint64 n =>
      obtain ⟨hval, hlen⟩ := digits64_spec n
      exact ⟨_, rfl, toInt_mk (false_eq_decide_natCast _) hval,
        false_eq_decide_natCast n.toNat, hlen⟩
  | int32 n =>
      have hspec := digits32_spec n.abs
      simp only [← abs_ne_zero] at hspec
      rw [toNat_abs] at hspec
      exact ⟨_, rfl, toInt_mk (slt_zero n) hspec.1, slt_zero n, hspec.2⟩
  | int64 n =>
      have hspec := digits64_spec n.abs
      simp only [← abs_ne_zero] at hspec
      rw [toNat_abs] at hspec
      exact ⟨_, rfl, toInt_mk (slt_zero n) hspec.1, slt_zero n, hspec.2⟩
  | bytes b bs h =>
      obtain ⟨hval, hlen⟩ := packDigits_spec (toNat_first_lt b) (toNat_groups_lt bs)
      rw [groupsVal_eq_sum] at hval
      have hrun := decodes_readInteger_of_continues h []
      rw [List.append_nil] at hrun
      refine ⟨⟨b &&& 0x40 ≠ 0, packDigits (b &&& 0x3f) (bs.map (· &&& 0x7f))⟩, ?_, ?_, rfl, ?_⟩
      · rw [build, hrun]
        rfl
      · simp only [toInt, val, hval, bytesVal, decide_eq_true_eq]
      · rw [hlen, List.length_map]
        rfl

/-- All but the last of the encoding's bytes have the continuation bit. -/
theorem continues_continued {g : Nat} {gs : List Nat} (hg : g < 128) (hgs : ∀ x ∈ gs, x < 128) :
    ∃ b bs, continued (g :: gs) = b :: bs ∧ bs.length = gs.length ∧ Continues b bs := by
  induction gs generalizing g with
  | nil =>
      refine ⟨BitVec.ofNat 8 g, [], rfl, rfl, fun x hx => absurd hx List.not_mem_nil, ?_⟩
      show BitVec.ofNat 8 g &&& 0x80 = 0
      by_contra hbit
      have := (and_ne_zero_iff 7 rfl).mp hbit
      rw [BitVec.toNat_ofNat] at this
      omega
  | cons x gs ih =>
      obtain ⟨b, bs, hbytes, hlen, hcont, hlast⟩ :=
        ih (hgs x List.mem_cons_self) fun y hy => hgs y (List.mem_cons_of_mem x hy)
      refine ⟨BitVec.ofNat 8 (0x80 + g), b :: bs, ?_, ?_, ?_, ?_⟩
      · rw [continued, hbytes]
        rfl
      · rw [List.length_cons, List.length_cons, hlen]
      · intro y hy
        rw [List.dropLast_cons_of_ne_nil (List.cons_ne_nil b bs)] at hy
        cases List.mem_cons.mp hy with
        | inl hy =>
            rw [hy, and_ne_zero_iff 7 rfl, BitVec.toNat_ofNat]
            omega
        | inr hy => exact hcont y hy
      · rwa [List.getLast_cons (List.cons_ne_nil b bs)]

/-- The documented encoding of an integer is a canonical source of it. -/
theorem Source.of_integerBytes (i : Int) :
    ∃ b bs h, integerBytes i = b :: bs ∧ (Source.bytes b bs h).val = i ∧
      (Source.bytes b bs h).Canonical := by
  obtain ⟨g, gs, heq, hg, hgs, hgval, hmin⟩ := integerGroups_spec i.natAbs
  have hlt : (if i < 0 then 0x40 + g else g) < 128 := by
    split
    · omega
    · omega
  obtain ⟨b, bs, hbytes, hlen, h⟩ := continues_continued hlt hgs
  have hi : integerBytes i = b :: bs := by
    rw [integerBytes, heq]
    exact hbytes
  -- Both descriptions of the reader's result are the same integer.
  obtain ⟨n, hn, hval, -⟩ := (Source.bytes b bs h).build_spec
  have hrun := decodes_readInteger i []
  rw [List.append_nil, hi] at hrun
  rw [build, hrun] at hn
  cases hn
  have hdig : digitsVal (toDigits i.natAbs) = i.natAbs := by
    rw [toDigits, digitsVal_eq_ofDigits, List.map_reverse, List.reverse_reverse, List.map_map]
    have hmap : (Nat.digits (2 ^ 32) i.natAbs).map (BitVec.toNat ∘ BitVec.ofNat 32)
        = Nat.digits (2 ^ 32) i.natAbs := by
      refine (List.map_congr_left fun x hx => ?_).trans (List.map_id _)
      have hx := Nat.digits_lt_base (b := 2 ^ 32) (by decide) hx
      exact (BitVec.toNat_ofNat ..).trans (Nat.mod_eq_of_lt hx)
    rw [hmap, Nat.ofDigits_digits]
  have hi' : (Source.bytes b bs h).val = i := by
    rw [← hval]
    exact toInt_mk rfl hdig
  refine ⟨b, bs, h, hi, hi', ?_⟩
  have hmag : bytesVal b bs = i.natAbs := by
    rw [← hi', val]
    split
    · omega
    · omega
  refine hmin.imp (fun h0 => List.length_eq_zero_iff.mp (by rw [hlen, h0]; rfl)) fun hle => ?_
  rw [hlen, hmag]
  exact hle

/-! ### The conversions -/

/-- Digits without a zero in front, unless it is the only one. -/
def Trim : List (BitVec 32) → Prop
  | d :: _ :: _ => d ≠ 0
  | _ => True

/-- The shortest digits do not start with zero. -/
theorem trim_toDigits (n : Nat) : Trim (toDigits n) := by
  cases hds : toDigits n with
  | nil => trivial
  | cons d ds =>
      cases ds with
      | nil => trivial
      | cons e ds =>
          intro hd
          -- The leading digit is the last one of Mathlib's list.
          have hne : Nat.digits (2 ^ 32) n ≠ [] := by
            intro h0
            rw [toDigits, h0] at hds
            cases hds
          have hlast := Nat.getLast_digit_ne_zero (2 ^ 32)
            (Nat.digits_ne_nil_iff_ne_zero.mp hne)
          have hhead : (toDigits n).head? = some d := by rw [hds]; rfl
          rw [toDigits, List.head?_reverse, List.getLast?_map,
            List.getLast?_eq_some_getLast hne, Option.map_some, Option.some.injEq, hd] at hhead
          have hlt := Nat.digits_lt_base (b := 2 ^ 32) (by decide) (List.getLast_mem hne)
          have hz := congrArg BitVec.toNat hhead
          rw [BitVec.toNat_ofNat, Nat.mod_eq_of_lt hlt] at hz
          exact hlast hz

/-- Digits that are no more than the value needs. -/
theorem trim_of_length {ds : List (BitVec 32)}
    (h : ds.length = (Nat.size (digitsVal ds) + 31) / 32) : Trim ds := by
  have hhead := head?_ne_zero h
  cases ds with
  | nil => trivial
  | cons d ds =>
      cases ds with
      | nil => trivial
      | cons e ds =>
          intro hd
          exact hhead (by rw [hd]; rfl)

/-- The magnitude of an integer is the value of its digits. -/
theorem digitsVal_eq_natAbs (n : Integer) : digitsVal n.digits = n.toInt.natAbs := by
  rw [toInt]
  split
  · omega
  · omega

/-- Canonical sources have no digit too many. -/
theorem Source.trim {s : Source} (hs : s.Canonical) {n : Integer} (hn : s.build = .ok n) :
    Trim n.digits := by
  obtain ⟨m, hm, hval, -, hlen⟩ := s.build_spec
  obtain rfl : n = m := Except.ok.inj (hn.symm.trans hm)
  have hword : s.numDigits = (Nat.size s.val.natAbs + 31) / 32 → Trim n.digits := by
    intro hnum
    refine trim_of_length ?_
    rw [hlen, hnum, digitsVal_eq_natAbs, hval]
  cases s with
  | default =>
      cases hn
      trivial
  | uint32 _ => exact hword rfl
  | int32 _ => exact hword rfl
  | uint64 _ => exact hword rfl
  | int64 _ => exact hword rfl
  | bytes b bs h =>
      have hrun := decodes_readInteger_of_continues h []
      rw [List.append_nil] at hrun
      rw [build, hrun] at hn
      cases hn
      show Trim (packDigits _ _)
      rw [packDigits_eq (toNat_first_lt b) (toNat_groups_lt bs)]
      · exact trim_toDigits _
      · rw [List.length_map, groupsVal_eq_sum]
        exact hs.imp (fun h0 => by rw [h0]; rfl) id

/-- The conversions to words of fixed width. -/
inductive Conversion where
  | toInt32
  | toInt64
  | toUInt32
  | toUInt64
  deriving DecidableEq

namespace Conversion

/-- The number that the conversion sets `n` to; `none` where it returns `true`. -/
def run : Conversion → Integer → Option Int
  | toInt32, n => n.toInt32.map BitVec.toInt
  | toInt64, n => n.toInt64.map BitVec.toInt
  | toUInt32, n => n.toUInt32.map fun w => (w.toNat : Int)
  | toUInt64, n => n.toUInt64.map fun w => (w.toNat : Int)

/-- The width of the target type. -/
def width : Conversion → Nat
  | toInt32 | toUInt32 => 32
  | toInt64 | toUInt64 => 64

/-- The target type is signed. -/
def signed : Conversion → Bool
  | toInt32 | toInt64 => true
  | toUInt32 | toUInt64 => false

/-- The number lies in the range of the target type. -/
def Fits (c : Conversion) (v : Int) : Prop :=
  if c.signed then -2 ^ (c.width - 1) ≤ v ∧ v < 2 ^ (c.width - 1)
  else 0 ≤ v ∧ v < 2 ^ c.width

instance (c : Conversion) (v : Int) : Decidable (c.Fits v) :=
  inferInstanceAs (Decidable (if c.signed then _ ∧ _ else _ ∧ _))

/-- The conversion gives the number where it fits, and reports where it does
not. -/
def Right (c : Conversion) (n : Integer) (v : Int) : Prop :=
  c.run n = if c.Fits v then some v else none

instance (c : Conversion) (n : Integer) (v : Int) : Decidable (c.Right n v) :=
  inferInstanceAs (Decidable (c.run n = _))

end Conversion

/-- A leading digit that is not zero makes all positions after it count. -/
theorem le_digitsVal {d : BitVec 32} (hd : d ≠ 0) (ds : List (BitVec 32)) :
    2 ^ (32 * ds.length) ≤ digitsVal (d :: ds) := by
  have hpos : 0 < d.toNat := Nat.pos_of_ne_zero fun h0 => hd (BitVec.eq_of_toNat_eq h0)
  rw [digitsVal_cons]
  exact Nat.le_trans (Nat.le_mul_of_pos_left _ hpos) (Nat.le_add_right _ _)

/-- The word that two digits are put together to. -/
theorem toNat_two (d e : BitVec 32) :
    ((d.setWidth 64 <<< 32) + e.setWidth 64 : BitVec 64).toNat = digitsVal [d, e] := by
  have hd := d.isLt
  have he := e.isLt
  rw [digitsVal_two, BitVec.toNat_add, BitVec.toNat_shiftLeft, Nat.shiftLeft_eq,
    BitVec.toNat_setWidth, BitVec.toNat_setWidth]
  omega

/-- The machine negation of a magnitude that the signed type has room for. -/
theorem toInt_neg_of_le {w : Nat} {u : BitVec w} (h : 2 * u.toNat ≤ 2 ^ w) :
    (-u).toInt = -u.toNat := by
  rw [BitVec.toInt_eq_toNat_cond, BitVec.toNat_neg]
  rcases Nat.eq_zero_or_pos u.toNat with h0 | hpos
  · rw [h0, Nat.sub_zero, Nat.mod_self, if_pos (by simp)]
    rfl
  · have hlt := u.isLt
    rw [Nat.mod_eq_of_lt (by omega), if_neg (by omega)]
    push_cast [Nat.le_of_lt hlt]
    omega

/-- A magnitude that the signed type has room for is itself. -/
theorem toInt_of_lt {w : Nat} {u : BitVec w} (h : 2 * u.toNat < 2 ^ w) :
    u.toInt = u.toNat := by
  rw [BitVec.toInt_eq_toNat_cond, if_pos h]

/-- A number of a magnitude that no type of the width holds. -/
theorem Conversion.not_fits {c : Conversion} {v : Int} (h : 2 ^ c.width ≤ v.natAbs) :
    ¬ c.Fits v := by
  cases c <;> simp only [Fits, signed, width, if_true, Bool.false_eq_true, if_false] at h ⊢ <;>
    omega

/-- More digits than the target has room for. -/
theorem Conversion.right_none {c : Conversion} {n : Integer} (hrun : c.run n = none)
    {d : BitVec 32} {ds : List (BitVec 32)} (hn : n.digits = d :: ds) (hd : d ≠ 0)
    (hlen : c.width ≤ 32 * ds.length) : c.Right n n.toInt := by
  have hle : 2 ^ c.width ≤ n.toInt.natAbs := by
    rw [← digitsVal_eq_natAbs, hn]
    exact Nat.le_trans (Nat.pow_le_pow_right (by decide) hlen) (le_digitsVal hd ds)
  rw [Right, hrun, if_neg (not_fits hle)]

/-- The test and the negation of the signed conversions, on a sign and a
magnitude. -/
theorem Conversion.right_signed {c : Conversion} (hc : c.signed = true) {sign : Bool}
    {ds : List (BitVec 32)} {u : BitVec c.width} (hun : u.toNat = digitsVal ds)
    (hrun : c.run ⟨sign, ds⟩ = (if sign then if u.toNat ≤ 2 ^ (c.width - 1) then some (-u) else none
      else if u.toNat < 2 ^ (c.width - 1) then some u else none).map BitVec.toInt) :
    c.Right ⟨sign, ds⟩ (toInt ⟨sign, ds⟩) := by
  have hpow : 2 ^ c.width = 2 * 2 ^ (c.width - 1) := by
    cases c <;> rfl
  have hcast : (2 : Int) ^ (c.width - 1) = ((2 ^ (c.width - 1) : Nat) : Int) := by push_cast; rfl
  rw [Right, hrun, toInt, ← hun]
  simp only [Fits, hc, if_true, hcast]
  -- From here on the bound is a number `p` with `2 ^ width = 2 * p`.
  have hpos : 0 < 2 ^ (c.width - 1) := Nat.two_pow_pos _
  generalize 2 ^ (c.width - 1) = p at *
  cases sign with
  | true =>
      simp only [if_true]
      by_cases hle : u.toNat ≤ p
      · rw [if_pos hle, if_pos (by omega), Option.map_some, toInt_neg_of_le (by omega)]
      · rw [if_neg hle, if_neg (by omega), Option.map_none]
  | false =>
      simp only [Bool.false_eq_true, if_false]
      by_cases hlt : u.toNat < p
      · rw [if_pos hlt, if_pos (by omega), Option.map_some, toInt_of_lt (by omega)]
      · rw [if_neg hlt, if_neg (by omega), Option.map_none]

/-- More than two digits. -/
theorem exists_three {ds : List (BitVec 32)} (h : ¬ ds.length ≤ 2) :
    ∃ d e f es, ds = d :: e :: f :: es := by
  match ds with
  | [] | [_] | [_, _] => simp at h
  | d :: e :: f :: es => exact ⟨d, e, f, es, rfl⟩

/-- Two digits are all that `toInt64` has to look at. -/
theorem Conversion.right_toInt64 {n : Integer} (h : n.digits.length ≤ 2) :
    toInt64.Right n n.toInt := by
  obtain ⟨sign, ds⟩ := n
  match ds, h with
  | [], _ => cases sign <;> decide
  | [d], _ =>
      -- One digit always fits, so the code does not test it.
      have hd : (d.setWidth 64 : BitVec 64).toNat = d.toNat := by
        rw [BitVec.toNat_setWidth, Nat.mod_eq_of_lt (by have := d.isLt; omega)]
      have hlt : (d.setWidth 64 : BitVec 64).toNat < 2 ^ 63 := by
        rw [hd]
        have := d.isLt
        omega
      have htest : ∀ w : BitVec 64, w.toNat < 2 ^ 63 →
          (if sign then if w.toNat ≤ 2 ^ 63 then some (-w) else none
            else if w.toNat < 2 ^ 63 then some w else none) = some (if sign then -w else w) := by
        intro w hw
        rw [if_pos (Nat.le_of_lt hw), if_pos hw]
        cases sign <;> rfl
      exact right_signed (c := .toInt64) rfl (u := d.setWidth 64)
        (hd.trans (digitsVal_one d).symm)
        (congrArg (Option.map BitVec.toInt) (htest _ hlt).symm)
  | [d, e], _ =>
      exact right_signed (c := .toInt64) rfl (u := (d.setWidth 64 <<< 32) + e.setWidth 64)
        (toNat_two d e) rfl
  | d :: e :: f :: ds, h => simp at h

/-- The signed conversions give the number exactly if it fits. -/
theorem Conversion.right_of_signed {c : Conversion} (hc : c.signed = true) {n : Integer}
    (h : Trim n.digits) : c.Right n n.toInt := by
  cases c with
  | toUInt32 => cases hc
  | toUInt64 => cases hc
  | toInt32 =>
      obtain ⟨sign, ds⟩ := n
      match ds, h with
      | [], _ => cases sign <;> decide
      | [d], _ =>
          exact right_signed (c := .toInt32) rfl (u := d) (digitsVal_one d).symm rfl
      | d :: e :: ds, hd =>
          refine right_none rfl rfl hd ?_
          show 32 ≤ 32 * (ds.length + 1)
          omega
  | toInt64 =>
      by_cases hlen : n.digits.length ≤ 2
      · exact right_toInt64 hlen
      · obtain ⟨d, e, f, es, hn⟩ := exists_three hlen
        rw [hn] at h
        refine right_none (by rw [run, Integer.toInt64, hn]; rfl) hn h ?_
        show 64 ≤ 32 * (es.length + 2)
        omega

/-- Two digits are all that `toUInt64` has to look at. -/
theorem Conversion.run_toUInt64 {n : Integer} (h : n.digits.length ≤ 2) :
    toUInt64.run n = some (n.toInt.natAbs : Int) := by
  rw [← digitsVal_eq_natAbs]
  obtain ⟨sign, ds⟩ := n
  match ds, h with
  | [], _ => rfl
  | [d], _ =>
      have hd : (d.setWidth 64 : BitVec 64).toNat = d.toNat := by
        rw [BitVec.toNat_setWidth, Nat.mod_eq_of_lt (by have := d.isLt; omega)]
      rw [digitsVal_one]
      exact congrArg (fun k : Nat => some (k : Int)) hd
  | [d, e], _ =>
      rw [← toNat_two]
      rfl
  | d :: e :: f :: ds, h => simp at h

/-- The unsigned conversions give the magnitude, whatever the sign. -/
theorem Conversion.run_unsigned {c : Conversion} (hc : c.signed = false) {n : Integer}
    (h : Trim n.digits) :
    c.run n = if n.toInt.natAbs < 2 ^ c.width then some (n.toInt.natAbs : Int) else none := by
  have hmany : ∀ (d : BitVec 32) (es : List (BitVec 32)), n.digits = d :: es → d ≠ 0 →
      c.width ≤ 32 * es.length → ¬ n.toInt.natAbs < 2 ^ c.width := by
    intro d es hn hd hlen
    have hle := Nat.le_trans (Nat.pow_le_pow_right (n := 2) (by decide) hlen) (le_digitsVal hd es)
    rw [← digitsVal_eq_natAbs, hn]
    omega
  have hfew : 32 * n.digits.length ≤ c.width → n.toInt.natAbs < 2 ^ c.width := by
    intro hlen
    rw [← digitsVal_eq_natAbs]
    exact Nat.lt_of_lt_of_le (digitsVal_lt n.digits) (Nat.pow_le_pow_right (by decide) hlen)
  cases c with
  | toInt32 => cases hc
  | toInt64 => cases hc
  | toUInt32 =>
      obtain ⟨sign, ds⟩ := n
      match ds, h with
      | [], _ => cases sign <;> rfl
      | [d], _ =>
          rw [if_pos (hfew (Nat.le_refl 32)), ← digitsVal_eq_natAbs, digitsVal_one]
          rfl
      | d :: e :: ds, hd =>
          rw [if_neg (hmany d (e :: ds) rfl hd ?_)]
          · rfl
          · show 32 ≤ 32 * (ds.length + 1)
            omega
  | toUInt64 =>
      by_cases hlen : n.digits.length ≤ 2
      · rw [run_toUInt64 hlen, if_pos (hfew (show 32 * _ ≤ 64 by omega))]
      · obtain ⟨d, e, f, es, hn⟩ := exists_three hlen
        rw [hn] at h
        rw [if_neg (hmany d (e :: f :: es) hn h ?_)]
        · rw [run, Integer.toUInt64, hn]
          rfl
        · show 64 ≤ 32 * (es.length + 2)
          omega

/-- The integer of a canonical source is converted right exactly if the target is
signed, or the number is not negative, or its magnitude does not fit the target
either. -/
theorem right_iff (s : Source) (hs : s.Canonical) (c : Conversion) :
    ∃ n, s.build = .ok n ∧
      (c.Right n s.val ↔ c.signed = true ∨ 0 ≤ s.val ∨ s.val ≤ -2 ^ c.width) := by
  obtain ⟨n, hn, hval, -⟩ := s.build_spec
  have htrim := s.trim hs hn
  refine ⟨n, hn, ?_⟩
  rw [← hval]
  cases hc : c.signed with
  | true => exact iff_of_true (Conversion.right_of_signed hc htrim) (.inl rfl)
  | false =>
      have hcast : (2 : Int) ^ c.width = ((2 ^ c.width : Nat) : Int) := by push_cast; rfl
      rw [Conversion.Right, Conversion.run_unsigned hc htrim]
      simp only [Conversion.Fits, hc, Bool.false_eq_true, if_false, false_or, hcast]
      generalize n.toInt = v
      generalize 2 ^ c.width = p
      by_cases hsmall : v.natAbs < p
      · rw [if_pos hsmall]
        by_cases hfit : 0 ≤ v ∧ v < p
        · rw [if_pos hfit]
          exact iff_of_true (by rw [Int.natAbs_of_nonneg hfit.1]) (.inl hfit.1)
        · rw [if_neg hfit]
          exact iff_of_false (by simp) (by omega)
      · rw [if_neg hsmall, if_neg (by omega)]
        exact iff_of_true rfl (by omega)

/-- The least 64-bit integer, read from its ten bytes, is no unsigned one. The first byte has the
sign and the only bit of the magnitude, and `63` bits follow, so no group is left out. -/
theorem right_iff_min :
    ∃ n, (Source.bytes 0xc1 (List.replicate 8 0x80 ++ [0x00]) (by decide)).build = .ok n ∧
      ¬ Conversion.toUInt64.Right n (-2 ^ 63) := by
  obtain ⟨n, hn, hiff⟩ :=
    right_iff (.bytes 0xc1 (List.replicate 8 0x80 ++ [0x00]) (by decide)) (.inr (by decide))
      .toUInt64
  have hval : (Source.bytes 0xc1 (List.replicate 8 0x80 ++ [0x00]) (by decide)).val = -2 ^ 63 := by
    decide
  rw [hval] at hiff
  exact ⟨n, hn, fun hright => absurd (hiff.mp hright) (by decide)⟩

/-- Minus one fits no unsigned type, but its magnitude is what `toUInt32` gives. -/
theorem not_right_minus_one :
    (Source.int32 (-1)).build = .ok (ofInt32 (-1)) ∧
      Conversion.toUInt32.run (ofInt32 (-1)) = some 1 ∧
      ¬ Conversion.toUInt32.Right (ofInt32 (-1)) (Source.int32 (-1)).val :=
  ⟨rfl, by decide, by decide⟩

/-! ### Signed overflow

The constructors from signed integers take an absolute value, and the signed
conversions cast a digit to a signed type and negate it. `SignedOp` is one
such operation with its exact result. -/

/-- A signed operation: the width of its type, and the exact result. -/
structure SignedOp where
  /-- The width of the type. -/
  width : Nat
  /-- The exact result. -/
  exact : Int
  deriving DecidableEq

/-- The exact result is a value of the type. -/
def SignedOp.InRange (op : SignedOp) : Prop :=
  -2 ^ (op.width - 1) ≤ op.exact ∧ op.exact < 2 ^ (op.width - 1)

instance (op : SignedOp) : Decidable op.InRange := inferInstanceAs (Decidable (_ ∧ _))

/-- The operations of a signed constructor: `abs`, if the number is not zero. -/
def absOps {w : Nat} (n : BitVec w) : List SignedOp :=
  if n ≠ 0 then [⟨w, n.toInt.natAbs⟩] else []

/-- The cast of a magnitude to the signed type, and its negation. -/
def negOps {w : Nat} (sign : Bool) (un : BitVec w) : List SignedOp :=
  if sign then [⟨w, un.toNat⟩, ⟨w, -un.toInt⟩] else [⟨w, un.toNat⟩]

/-- The operations of `toInt32`. -/
def Integer.toInt32Ops (n : Integer) : List SignedOp :=
  match n.digits with
  | [d] =>
      if n.sign then if d.toNat ≤ 0x80000000 then negOps true d else []
      else if d.toNat < 0x80000000 then negOps false d else []
  | _ => []

/-- The operations of `toInt64`. -/
def Integer.toInt64Ops (n : Integer) : List SignedOp :=
  match n.digits with
  | [d] => negOps n.sign (d.setWidth 64)
  | [d, e] =>
      let un : BitVec 64 := (d.setWidth 64 <<< 32) + e.setWidth 64
      if n.sign then if un.toNat ≤ 2 ^ 63 then negOps true un else []
      else if un.toNat < 2 ^ 63 then negOps false un else []
  | _ => []

/-- A signed machine integer. -/
inductive MachineInt where
  | int32 (n : BitVec 32)
  | int64 (n : BitVec 64)
  deriving DecidableEq

namespace MachineInt

/-- The width of the type. -/
def width : MachineInt → Nat
  | int32 _ => 32
  | int64 _ => 64

/-- The number. -/
def val : MachineInt → Int
  | int32 n => n.toInt
  | int64 n => n.toInt

/-- `integer (n)`. -/
def toInteger : MachineInt → Integer
  | int32 n => ofInt32 n
  | int64 n => ofInt64 n

/-- The conversion back, `toInt32` or `toInt64`. -/
def back : MachineInt → Option Int
  | int32 n => Conversion.toInt32.run (ofInt32 n)
  | int64 n => Conversion.toInt64.run (ofInt64 n)

/-- The signed operations of both ways. -/
def ops : MachineInt → List SignedOp
  | int32 n => absOps n ++ (ofInt32 n).toInt32Ops
  | int64 n => absOps n ++ (ofInt64 n).toInt64Ops

/-- The way there and back gives the number, the sign agrees, and no signed
operation leaves the range of its type. -/
def Exact (m : MachineInt) : Prop :=
  m.back = some m.val ∧ (m.toInteger.getSign < 0 ↔ m.val < 0) ∧ ∀ op ∈ m.ops, op.InRange

end MachineInt

/-- The absolute value leaves the range at the least number only. -/
theorem absOps_inRange_iff {w : Nat} (n : BitVec w) :
    (∀ op ∈ absOps n, op.InRange) ↔ n.toInt ≠ -2 ^ (w - 1) := by
  have hlo := BitVec.le_toInt n
  have hhi := BitVec.toInt_lt (x := n)
  have hpos : (0 : Int) < 2 ^ (w - 1) := by positivity
  by_cases h : n = 0
  · have hz : n.toInt = 0 := by rw [h]; exact BitVec.toInt_zero
    rw [absOps, if_neg (not_not.mpr h)]
    exact iff_of_true (fun _ hop => absurd hop List.not_mem_nil) (by omega)
  · rw [absOps, if_pos h]
    simp only [List.mem_singleton, forall_eq, SignedOp.InRange]
    omega

/-- The cast and the negation of a magnitude below the bound. -/
theorem negOps_inRange {w : Nat} {u : BitVec w} (sign : Bool) (h : 2 * u.toNat < 2 ^ w) :
    ∀ op ∈ negOps sign u, op.InRange := by
  have hpow : 2 ^ w ≤ 2 * 2 ^ (w - 1) := by
    rw [← Nat.pow_succ']
    exact Nat.pow_le_pow_right (by decide) (by omega)
  have hcast : (2 : Int) ^ (w - 1) = ((2 ^ (w - 1) : Nat) : Int) := by push_cast; rfl
  have hint := toInt_of_lt h
  have hpos : SignedOp.InRange ⟨w, u.toNat⟩ := by
    simp only [SignedOp.InRange, hcast]
    omega
  intro op hop
  rw [negOps] at hop
  cases sign with
  | true =>
      simp only [if_true, List.mem_cons, List.not_mem_nil, or_false] at hop
      rcases hop with rfl | rfl
      · exact hpos
      · simp only [SignedOp.InRange, hcast, hint]
        omega
  | false =>
      simp only [Bool.false_eq_true, if_false, List.mem_singleton] at hop
      rw [hop]
      exact hpos

/-- The way back of a number other than the least. -/
theorem toInt32Ops_inRange {n : BitVec 32} (h : n.toInt ≠ -2 ^ 31) :
    ∀ op ∈ (ofInt32 n).toInt32Ops, op.InRange := by
  have habs := toNat_abs n
  have hlo : -2 ^ 31 ≤ n.toInt := BitVec.le_toInt n
  have hhi : n.toInt < 2 ^ 31 := BitVec.toInt_lt
  have hops := negOps_inRange (u := n.abs) (n.slt 0) (by omega)
  by_cases hz : n = 0
  · rw [hz]
    decide
  · rw [toInt32Ops, ofInt32, if_pos hz]
    cases hs : n.slt 0 with
    | true =>
        rw [hs] at hops
        simp only [if_true]
        rw [if_pos (by omega)]
        exact hops
    | false =>
        rw [hs] at hops
        simp only [Bool.false_eq_true, if_false]
        rw [if_pos (by omega)]
        exact hops

/-- The way back of a number other than the least. -/
theorem toInt64Ops_inRange {n : BitVec 64} (h : n.toInt ≠ -2 ^ 63) :
    ∀ op ∈ (ofInt64 n).toInt64Ops, op.InRange := by
  have habs := toNat_abs n
  have hlo : -2 ^ 63 ≤ n.toInt := BitVec.le_toInt n
  have hhi : n.toInt < 2 ^ 63 := BitVec.toInt_lt
  have hops := fun un (hun : BitVec.toNat un = n.toInt.natAbs) =>
    negOps_inRange (w := 64) (u := un) (n.slt 0) (by omega)
  by_cases hz : n = 0
  · rw [hz]
    decide
  · have hspec := (digits64_spec n.abs).1
    rw [if_pos ((abs_ne_zero n).mp hz)] at hspec
    rw [toInt64Ops, ofInt64, if_pos hz]
    unfold pushDigits at hspec ⊢
    by_cases h32 : n.abs.toNat < 0x100000000
    · rw [if_pos h32, digitsVal_one] at hspec
      rw [if_pos h32]
      refine hops _ ?_
      rw [BitVec.toNat_setWidth, hspec, habs, Nat.mod_eq_of_lt (by omega)]
    · rw [if_neg h32, ← toNat_two] at hspec
      rw [if_neg h32]
      have hop := hops _ (hspec.trans habs)
      cases hs : n.slt 0 with
      | true =>
          rw [hs] at hop
          simp only [if_true]
          rw [if_pos (by omega)]
          exact hop
      | false =>
          rw [hs] at hop
          simp only [Bool.false_eq_true, if_false]
          rw [if_pos (by omega)]
          exact hop

namespace MachineInt

/-- The number comes back, also the least one. -/
theorem back_eq (m : MachineInt) : m.back = some m.val := by
  cases m with
  | int32 n =>
      obtain ⟨i, hi, hval, -⟩ := (Source.int32 n).build_spec
      have htrim := Source.trim (s := .int32 n) trivial hi
      cases hi
      have hr := Conversion.right_of_signed (c := .toInt32) rfl htrim
      rw [hval] at hr
      exact hr.trans (if_pos ⟨BitVec.le_toInt n, BitVec.toInt_lt⟩)
  | int64 n =>
      obtain ⟨i, hi, hval, -⟩ := (Source.int64 n).build_spec
      have htrim := Source.trim (s := .int64 n) trivial hi
      cases hi
      have hr := Conversion.right_of_signed (c := .toInt64) rfl htrim
      rw [hval] at hr
      exact hr.trans (if_pos ⟨BitVec.le_toInt n, BitVec.toInt_lt⟩)

/-- The sign that is kept is the number's. -/
theorem getSign_lt_zero (m : MachineInt) : m.toInteger.getSign < 0 ↔ m.val < 0 := by
  have hsign : m.toInteger.sign = decide (m.val < 0) := by
    cases m with
    | int32 n => exact slt_zero n
    | int64 n => exact slt_zero n
  rw [getSign, hsign]
  by_cases h : m.val < 0
  · simp [h]
  · simp [h]

/-- The way there and back of a machine integer is free of overflow exactly if the
number is not the least of its type. -/
theorem noOverflow_iff (m : MachineInt) : m.Exact ↔ m.val ≠ -2 ^ (m.width - 1) := by
  constructor
  · rintro ⟨-, -, hops⟩
    cases m with
    | int32 n =>
        exact (absOps_inRange_iff n).mp fun op hop => hops op (List.mem_append_left _ hop)
    | int64 n =>
        exact (absOps_inRange_iff n).mp fun op hop => hops op (List.mem_append_left _ hop)
  · intro h
    refine ⟨m.back_eq, m.getSign_lt_zero, fun op hop => ?_⟩
    cases m with
    | int32 n =>
        cases List.mem_append.mp hop with
        | inl hop => exact (absOps_inRange_iff n).mpr h op hop
        | inr hop => exact toInt32Ops_inRange h op hop
    | int64 n =>
        cases List.mem_append.mp hop with
        | inl hop => exact (absOps_inRange_iff n).mpr h op hop
        | inr hop => exact toInt64Ops_inRange h op hop

/-- The absolute value, the cast and the negation of the least 32-bit number all
leave the type. -/
theorem not_exact_min :
    (int32 (BitVec.intMin 32)).ops = [⟨32, 2 ^ 31⟩, ⟨32, 2 ^ 31⟩, ⟨32, 2 ^ 31⟩] ∧
      ¬ (int32 (BitVec.intMin 32)).Exact := by
  have hops : (int32 (BitVec.intMin 32)).ops = [⟨32, 2 ^ 31⟩, ⟨32, 2 ^ 31⟩, ⟨32, 2 ^ 31⟩] := by
    decide
  refine ⟨hops, fun h => ?_⟩
  have hmem : (⟨32, 2 ^ 31⟩ : SignedOp) ∈ (int32 (BitVec.intMin 32)).ops := by
    rw [hops]
    exact List.mem_cons_self
  exact absurd (h.2.2 _ hmem) (by decide)

end MachineInt

end SmlnjCfg.Asdl
