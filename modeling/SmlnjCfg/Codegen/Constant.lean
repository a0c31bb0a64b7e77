import SmlnjCfg.Asdl.Convert
import SmlnjCfg.Codegen.Types

/-!
# `SmlnjCfg.Codegen.Constant`: integer constants from the pickle to the code

A `NUM` is read as a multiprecision integer, and becomes a constant by one of
two conversions, which its sign chooses. The theorem `run_codegen_NUM` follows
the number from its bytes to the bit pattern of the constant, for the signed
and the unsigned numbers of each size.
-/

set_option autoImplicit false

namespace SmlnjCfg

open Asdl Asdl.Integer

/-- The bytes are an encoding of the integer: the sign bit and six bits of the
magnitude, then seven bits in each further byte. There may be zero groups in
front, as long as the bits fit two digits. -/
def Asdl.Encodes (iv : Int) (bytes : List Byte) : Prop :=
  ∃ b bs h, bytes = b :: bs ∧ (Source.bytes b bs h).val = iv ∧
    ((Source.bytes b bs h).Canonical ∨ (Source.bytes b bs h).numDigits ≤ 2)

/-- The documented encoding is one. -/
theorem Asdl.encodes_integerBytes (iv : Int) : Encodes iv (integerBytes iv) := by
  obtain ⟨b, bs, h, hbytes, hval, hcan⟩ := Source.of_integerBytes iv
  exact ⟨b, bs, h, hbytes, hval, .inl hcan⟩

/-- An encoding is read as an integer of its value. If this has at most 64 bits,
so has the representation. -/
theorem Asdl.Encodes.decodes {iv : Int} {bytes : List Byte} (h : Encodes iv bytes)
    (hiv : iv.natAbs < 2 ^ 64) :
    ∃ n : Integer, Decodes place readInteger bytes n ∧ n.toInt = iv ∧ n.digits.length ≤ 2 := by
  obtain ⟨b, bs, hcont, rfl, hval, hshort⟩ := h
  obtain ⟨n, hn, hnval, -, hlen⟩ := (Source.bytes b bs hcont).build_spec
  have hdec := decodes_readInteger_of_continues hcont
  have hrun := hdec []
  rw [List.append_nil] at hrun
  have hbuild := hn
  rw [Source.build, hrun] at hbuild
  obtain rfl := Except.ok.inj hbuild
  refine ⟨_, hdec, hnval.trans hval, ?_⟩
  cases hshort with
  | inr hshort => exact hlen.symm ▸ hshort
  | inl hcan =>
      by_contra hmany
      obtain ⟨d, e, f, es, hds⟩ := exists_three hmany
      have htrim := Source.trim hcan hn
      have hmag := digitsVal_eq_natAbs
        ⟨b &&& 0x40 ≠ 0, packDigits (b &&& 0x3f) (bs.map (· &&& 0x7f))⟩
      rw [hds] at htrim hmag
      -- A third digit that is not zero weighs at least `2 ^ 64`.
      have hle := le_digitsVal htrim (e :: f :: es)
      have hpow : 2 ^ 64 ≤ 2 ^ (32 * (e :: f :: es).length) :=
        Nat.pow_le_pow_right (by decide) (by simp only [List.length_cons]; omega)
      rw [hnval, hval] at hmag
      omega

namespace Cfg

open Codegen

/-- A number of at most 64 bits is compiled to its residue. -/
theorem Exp.run_codegen_of_length {n : Integer} (hlen : n.digits.length ≤ 2)
    (hlo : -2 ^ 63 ≤ n.toInt) (sz : Int) (c : Context) :
    (Exp.codegen (.NUM n sz)).run c
      = .ok (.const (iBits sz) (n.toInt % 2 ^ iBits sz).toNat, c) := by
  have hsign : n.getSign < 0 ↔ n.sign = true := by
    rw [getSign]
    cases n.sign <;> decide
  by_cases hs : n.sign = true
  · -- The signed conversion gives the number, which is not positive.
    have hle : n.toInt ≤ 0 := by
      rw [toInt, if_pos hs]
      omega
    have hr := Conversion.right_toInt64 hlen
    have hfits : Conversion.toInt64.Fits n.toInt :=
      show -2 ^ 63 ≤ n.toInt ∧ n.toInt < 2 ^ 63 by omega
    rw [Conversion.Right, if_pos hfits] at hr
    obtain ⟨w, hw, hwval⟩ := Option.map_eq_some_iff.mp hr
    rw [Exp.codegen, if_pos (hsign.mpr hs), hw]
    show Except.ok (IR.Value.const (iBits sz) (BitVec.ofInt (iBits sz) w.toInt).toNat, c) = _
    rw [hwval, BitVec.toNat_ofInt]
    push_cast
    rfl
  · -- The unsigned conversion gives the magnitude, which is the number.
    have hnonneg : 0 ≤ n.toInt := by
      rw [toInt, if_neg hs]
      omega
    have hr := Conversion.run_toUInt64 hlen
    obtain ⟨w, hw, hwval⟩ := Option.map_eq_some_iff.mp hr
    have hwval' : (w.toNat : Int) = n.toInt := by omega
    rw [Exp.codegen, if_neg (fun h => hs (hsign.mp h)), hw]
    show Except.ok (IR.Value.const (iBits sz) (w.setWidth (iBits sz)).toNat, c) = _
    rw [BitVec.toNat_setWidth, ← hwval']
    norm_cast

/-- Every integer in the signed or the unsigned range of one of the four sizes,
in any encoding and in front of any bytes, is read and then compiled to the
constant of that size with its residue, in every context. -/
theorem Exp.run_codegen_NUM (sz : Nat) (hsz : sz = 8 ∨ sz = 16 ∨ sz = 32 ∨ sz = 64) {iv : Int}
    (hlo : -2 ^ (sz - 1) ≤ iv) (hhi : iv < 2 ^ sz) {bytes : List Byte}
    (henc : Encodes iv bytes) :
    ∃ n : Integer, Decodes place readInteger bytes n ∧
      ∀ c, (Exp.codegen (.NUM n sz)).run c = .ok (.const sz (iv % 2 ^ sz).toNat, c) := by
  have hbits : iBits sz = sz := by
    rcases hsz with rfl | rfl | rfl | rfl <;> rfl
  have hrange : -2 ^ 63 ≤ iv ∧ iv < 2 ^ 64 := by
    rcases hsz with rfl | rfl | rfl | rfl <;> omega
  obtain ⟨n, hdec, hval, hlen⟩ := henc.decodes (by omega)
  refine ⟨n, hdec, fun c => ?_⟩
  have hrun := Exp.run_codegen_of_length hlen (by omega) sz c
  rwa [hbits, hval] at hrun

/-- The least 64-bit number. -/
theorem Exp.run_codegen_NUM_min :
    ∃ n : Integer, Decodes place readInteger (integerBytes (-2 ^ 63)) n ∧
      ∀ c, (Exp.codegen (.NUM n 64)).run c = .ok (.const 64 (2 ^ 63), c) :=
  Exp.run_codegen_NUM 64 (.inr (.inr (.inr rfl))) (by decide) (by decide)
    (encodes_integerBytes (-2 ^ 63))

end Cfg

end SmlnjCfg
