import SmlnjCfg.Lib.Codec
import SmlnjCfg.Lib.Memory
import Mathlib.Data.Nat.Bitwise

/-!
# `SmlnjCfg.Asdl.Stream`: the byte streams and basic values of the ASDL runtime

The input stream of `asdl-stream.hpp`, the basic readers of `asdl.hpp` and
`asdl.cpp`, and the writers of `asdl.cpp` they invert. The theorems:

* `decodes_readUint`, `decodes_readInt`: the variable-length numbers, for
  the ranges the writers assert.
* `decodes_readString`, `decodes_readSeq`: length-prefixed data.
* `decodes_readBool`, `decodes_readTag8`: the one-byte values.

A reader is a `Decoder` over `Instream`; `place` is the good stream in
front of given bytes.
-/

set_option autoImplicit false

namespace SmlnjCfg.Asdl

/-- An input stream: the bytes not yet read, and whether `good()` holds.
Only a read past the last byte clears the flag. -/
structure Instream where
  /-- The bytes not yet read. -/
  bytes : List Byte
  /-- The stream's `good()`. -/
  good : Bool
  deriving DecidableEq

/-- How a read ends when it does not return. Both members of `instream`
that report an error call `exit`. `outOfFuel` is the model's own: the
recursive readers of the code recurse on the call stack. -/
inductive ReadError where
  | invalidIOState
  | invalidTag (tag : Nat) (tyName : String)
  | outOfFuel
  deriving DecidableEq

/-- A reader of the ASDL runtime. -/
abbrev Reader := Decoder Instream ReadError

/-- The good stream in front of the given bytes. -/
def place (bytes : List Byte) : Instream := ⟨bytes, true⟩

/-- `instream::getb`. At the end of the input `get()` returns the end-of-file
value, which the cast turns into `0xff`, and the stream stops being good. -/
def getb : Reader Byte := fun is =>
  if is.good then
    match is.bytes with
    | b :: bytes => .ok (b, ⟨bytes, true⟩)
    | [] => .ok (0xff, ⟨[], false⟩)
  else .error .invalidIOState

/-- `instream::invalidTag`. -/
def invalidTag {α : Type} (tag : Nat) (tyName : String) : Reader α :=
  fun _ => .error (.invalidTag tag tyName)

/-- The fall-through `switch` of the number readers: shift in `n` more bytes. -/
def shiftIn {w : Nat} : Nat → BitVec w → Reader (BitVec w)
  | 0, v => pure v
  | n + 1, v => do
      let b ← getb
      shiftIn n ((v <<< 8) ||| b.setWidth w)

/-- `read_tag8`. -/
def readTag8 : Reader Nat := do
  let b ← getb
  pure b.toNat

/-- `read_bool`: the tags of `false` and `true` are `1` and `2`. -/
def readBool : Reader Bool := do
  let tag ← readTag8
  match tag with
  | 1 => pure false
  | 2 => pure true
  | tag => invalidTag tag "bool"

/-- `read_uint`: two bits of byte count and six bits of value in the first
byte. -/
def readUint : Reader Nat := do
  let b0 ← getb
  let v ← shiftIn (b0 >>> 6).toNat ((b0 &&& 0x3f).setWidth 32)
  pure v.toNat

/-- `read_int`: two bits of byte count, a sign bit and five bits of value in
the first byte. -/
def readInt : Reader Int := do
  let b0 ← getb
  let v ← shiftIn (b0 >>> 6).toNat ((b0 &&& 0x1f).setWidth 32)
  pure (if b0 &&& 0x20 ≠ 0 then -v.toInt - 1 else v.toInt)

/-- `read_string`. -/
def readString : Reader (List Byte) := do
  let len ← readUint
  getb.times len

/-- `read_seq`: a length and that many elements. -/
def readSeq {α : Type} (read : Reader α) : Reader (List α) := do
  let len ← readUint
  read.times len

/-- `write_tag8`. -/
def writeTag8 (ui : Nat) : List Byte := [BitVec.ofNat 8 ui]

/-- `write_bool`. -/
def writeBool (b : Bool) : List Byte := if b then writeTag8 2 else writeTag8 1

/-- The common body of `write_uint` and `write_int`: a number of at most `k`
bits goes into the first byte, under the sign bits; a longer one is preceded
by the count of further bytes in the two top bits. -/
def writeNum (k : Nat) (sign ui : BitVec 32) : List Byte :=
  if ui.toNat < 2 ^ k then [(sign ||| ui).setWidth 8]
  else if ui.toNat < 2 ^ (k + 8) then
    [(0x40#32 ||| sign ||| ui >>> 8).setWidth 8, ui.setWidth 8]
  else if ui.toNat < 2 ^ (k + 16) then
    [(0x80#32 ||| sign ||| ui >>> 16).setWidth 8, (ui >>> 8).setWidth 8, ui.setWidth 8]
  else
    [(0xc0#32 ||| sign ||| ui >>> 24).setWidth 8, (ui >>> 16).setWidth 8,
      (ui >>> 8).setWidth 8, ui.setWidth 8]

/-- `write_uint`, which asserts `ui <= 0x3fffffff`. -/
def writeUint (ui : Nat) : List Byte := writeNum 6 0 (BitVec.ofNat 32 ui)

/-- `write_int`, which asserts `-536870912 <= i < 536870912`. -/
def writeInt (i : Int) : List Byte :=
  if i < 0 then writeNum 5 0x20 (BitVec.ofInt 32 (-(i + 1)))
  else writeNum 5 0 (BitVec.ofInt 32 i)

/-- `write_string`. -/
def writeString (s : List Byte) : List Byte := writeUint s.length ++ s

/-! ### Reading single bytes -/

/-- A good stream hands out its next byte. -/
theorem decodes_getb (b : Byte) : Decodes place getb [b] b := fun _ => rfl

/-- A tag below `256` is read back. -/
theorem decodes_readTag8 {ui : Nat} (h : ui < 256) :
    Decodes place readTag8 (writeTag8 ui) ui := by
  have hui : (BitVec.ofNat 8 ui).toNat = ui := by
    rw [BitVec.toNat_ofNat, Nat.mod_eq_of_lt (by omega)]
  have hd := (decodes_getb (BitVec.ofNat 8 ui)).bind_pure (f := BitVec.toNat)
  rwa [hui] at hd

/-- A boolean is read back. -/
theorem decodes_readBool (b : Bool) : Decodes place readBool (writeBool b) b := by
  cases b
  · exact (decodes_readTag8 (by decide)).cons (Decodes.pure false)
  · exact (decodes_readTag8 (by decide)).cons (Decodes.pure true)

/-! ### Reading numbers

The bytes of a number are its base-256 digits, so the readers and writers
are compared as natural numbers: a shift is a product or a quotient, and an
`or` of disjoint bit ranges is a sum. -/

/-- The bits of disjoint ranges add up. -/
theorem toNat_or_of_lt {w : Nat} {x y : BitVec w} (i : Nat) (hx : x.toNat % 2 ^ i = 0)
    (hy : y.toNat < 2 ^ i) : (x ||| y).toNat = x.toNat + y.toNat := by
  have h : x.toNat = 2 ^ i * (x.toNat / 2 ^ i) := by
    have := Nat.div_add_mod x.toNat (2 ^ i)
    omega
  rw [BitVec.toNat_or, h, Nat.two_pow_add_eq_or_of_lt hy]

/-- Testing one bit of a byte. -/
theorem and_ne_zero_iff {b c : Byte} (i : Nat) (hc : c.toNat = 2 ^ i) :
    b &&& c ≠ 0 ↔ b.toNat / 2 ^ i % 2 = 1 := by
  have hand : (b &&& c).toNat = (b.toNat.testBit i).toNat * 2 ^ i := by
    rw [BitVec.toNat_and, hc]
    exact Nat.and_two_pow b.toNat i
  have hz : b &&& c ≠ 0 ↔ (b &&& c).toNat ≠ 0 :=
    not_congr ⟨fun h => by rw [h]; rfl, fun h => BitVec.eq_of_toNat_eq h⟩
  rw [hz, hand, Nat.testBit_eq_decide_div_mod_eq]
  by_cases h : b.toNat / 2 ^ i % 2 = 1
  · simp [h]
  · simp [h]

/-- Masking the low bits of a byte. -/
theorem toNat_and_low {b c : Byte} (k : Nat) (hc : c.toNat = 2 ^ k - 1) :
    (b &&& c).toNat = b.toNat % 2 ^ k := by
  rw [BitVec.toNat_and, hc, Nat.and_two_pow_sub_one_eq_mod]

/-- Shifting in a byte appends a base-256 digit. -/
theorem shiftLeft_or_byte {w : Nat} (hw : 8 ≤ w) (v : BitVec w) (b : Byte) :
    (v <<< 8) ||| b.setWidth w = BitVec.ofNat w (v.toNat * 256 + b.toNat) := by
  have hb : b.toNat < 2 ^ 8 := b.isLt
  obtain ⟨k, rfl⟩ := Nat.exists_eq_add_of_le hw
  have hbw : (b.setWidth (8 + k)).toNat = b.toNat := by
    rw [BitVec.toNat_setWidth,
      Nat.mod_eq_of_lt (Nat.lt_of_lt_of_le hb (Nat.pow_le_pow_right (by decide) hw))]
  have hv : (v <<< 8).toNat = v.toNat % 2 ^ k * 2 ^ 8 := by
    rw [BitVec.toNat_shiftLeft, Nat.shiftLeft_eq, Nat.pow_add, Nat.mul_comm (2 ^ 8) (2 ^ k),
      Nat.mul_mod_mul_right]
  apply BitVec.eq_of_toNat_eq
  rw [toNat_or_of_lt 8 (by rw [hv]; exact Nat.mul_mod_left _ _) (by omega), hbw, hv,
    BitVec.toNat_ofNat, Nat.pow_add, Nat.mod_mul, Nat.mul_comm v.toNat]
  show v.toNat % 2 ^ k * 256 + b.toNat
    = (256 * v.toNat + b.toNat) % 256 + 256 * ((256 * v.toNat + b.toNat) / 256 % 2 ^ k)
  rw [show (256 * v.toNat + b.toNat) / 256 = v.toNat by omega]
  omega

/-- The number whose base-256 digits are `acc` and then the bytes. -/
def appendBytes (acc : Nat) (bytes : List Byte) : Nat :=
  bytes.foldl (fun acc b => acc * 256 + b.toNat) acc

/-- The fall-through switch reads the base-256 number of the bytes. -/
theorem decodes_shiftIn {w : Nat} (hw : 8 ≤ w) (bytes : List Byte) (acc : Nat) :
    Decodes place (shiftIn bytes.length (BitVec.ofNat w acc)) bytes
      (BitVec.ofNat w (appendBytes acc bytes)) := by
  induction bytes generalizing acc with
  | nil => exact Decodes.pure _
  | cons b bytes ih =>
      refine (decodes_getb b).cons ?_
      have hacc : BitVec.ofNat w ((BitVec.ofNat w acc).toNat * 256 + b.toNat)
          = BitVec.ofNat w (acc * 256 + b.toNat) := by
        apply BitVec.eq_of_toNat_eq
        simp only [BitVec.toNat_ofNat]
        rw [Nat.add_mod, Nat.mul_mod, Nat.mod_mod, ← Nat.mul_mod, ← Nat.add_mod]
      rw [shiftLeft_or_byte hw, hacc]
      exact ih _

/-- The top two bits of a byte are its quotient by `64`. -/
theorem toNat_ushiftRight_six (b : Byte) : (b >>> 6).toNat = b.toNat / 64 := by
  rw [BitVec.toNat_ushiftRight, Nat.shiftRight_eq_div_pow]

/-- The byte string of an unsigned number: a first byte that packs the count
of the further bytes with six bits, then those bytes. -/
theorem decodes_readUint_of {b0 : Byte} {bytes : List Byte} {n : Nat}
    (hlen : b0.toNat / 64 = bytes.length)
    (hval : appendBytes (b0.toNat % 64) bytes = n) (hn : n < 2 ^ 32) :
    Decodes place readUint (b0 :: bytes) n := by
  have hlow : (b0 &&& 0x3f).setWidth 32 = BitVec.ofNat 32 (b0.toNat % 64) := by
    apply BitVec.eq_of_toNat_eq
    rw [BitVec.toNat_setWidth, toNat_and_low 6 rfl, BitVec.toNat_ofNat]
    rfl
  have hd := (decodes_shiftIn (w := 32) (by decide) bytes (b0.toNat % 64)).bind_pure
    (f := BitVec.toNat)
  rw [hval, BitVec.toNat_ofNat, Nat.mod_eq_of_lt hn] at hd
  refine (decodes_getb b0).cons ?_
  rw [toNat_ushiftRight_six, hlen, hlow]
  exact hd

/-- The first byte of a number: the count, the sign and the value bits. -/
theorem toNat_firstByte {tag sign x : BitVec 32} (k : Nat) (ht : tag.toNat % 64 = 0)
    (htag : tag.toNat < 256) (hs : sign.toNat % 2 ^ k = 0) (hx : x.toNat < 2 ^ k)
    (hlim : sign.toNat + 2 ^ k ≤ 64) :
    ((tag ||| sign ||| x).setWidth 8).toNat = tag.toNat + sign.toNat + x.toNat := by
  have hsx : (sign ||| x).toNat = sign.toNat + x.toNat := toNat_or_of_lt k hs hx
  have hall : (tag ||| (sign ||| x)).toNat = tag.toNat + (sign ||| x).toNat :=
    toNat_or_of_lt 6 ht (by show _ < 64; omega)
  rw [BitVec.toNat_setWidth, BitVec.or_assoc, hall, hsx, Nat.mod_eq_of_lt (by omega)]
  omega

/-- What `writeNum` writes: a first byte with the count of the others, the
sign, and the leading digit; the other bytes are the lower digits. -/
theorem writeNum_eq {k : Nat} {sign ui : BitVec 32} (hs : sign.toNat % 2 ^ k = 0)
    (hlim : sign.toNat + 2 ^ k ≤ 64) (hui : ui.toNat < 2 ^ (k + 24)) :
    ∃ b0 bytes acc, writeNum k sign ui = b0 :: bytes ∧ b0.toNat / 64 = bytes.length ∧
      b0.toNat % 64 = sign.toNat + acc ∧ acc < 2 ^ k ∧ appendBytes acc bytes = ui.toNat := by
  have hbyte : ∀ j, ((ui >>> j).setWidth 8).toNat = ui.toNat / 2 ^ j % 256 := fun j => by
    rw [BitVec.toNat_setWidth, BitVec.toNat_ushiftRight, Nat.shiftRight_eq_div_pow]
  have hlow : (ui.setWidth 8).toNat = ui.toNat % 256 := BitVec.toNat_setWidth ..
  have hfirst : ∀ (tag : BitVec 32) (j : Nat), tag.toNat % 64 = 0 → tag.toNat < 256 →
      ui.toNat < 2 ^ (k + j) →
      ((tag ||| sign ||| ui >>> j).setWidth 8).toNat
        = tag.toNat + sign.toNat + ui.toNat / 2 ^ j ∧ ui.toNat / 2 ^ j < 2 ^ k := by
    intro tag j ht htag hj
    have hx : (ui >>> j).toNat = ui.toNat / 2 ^ j := by
      rw [BitVec.toNat_ushiftRight, Nat.shiftRight_eq_div_pow]
    have hd : ui.toNat / 2 ^ j < 2 ^ k := by
      rw [Nat.pow_add, Nat.mul_comm] at hj
      exact Nat.div_lt_of_lt_mul hj
    exact ⟨hx ▸ toNat_firstByte k ht htag hs (hx ▸ hd) hlim, hd⟩
  unfold writeNum
  split
  next h1 =>
    have h := @toNat_firstByte 0#32 sign ui k rfl (by decide) hs h1 hlim
    rw [BitVec.zero_or, BitVec.toNat_ofNat, Nat.zero_mod, Nat.zero_add] at h
    refine ⟨_, [], ui.toNat, rfl, ?_, ?_, h1, rfl⟩
    · rw [h, List.length_nil]; omega
    · rw [h]; omega
  next h1 =>
  split
  next h2 =>
    obtain ⟨h, hd⟩ := hfirst 0x40#32 8 rfl (by decide) h2
    have : BitVec.toNat (0x40#32) = 64 := rfl
    refine ⟨_, _, ui.toNat / 2 ^ 8, rfl, ?_, ?_, hd, ?_⟩
    · rw [h]; simp only [List.length_cons, List.length_nil]; omega
    · rw [h]; omega
    · simp only [appendBytes, List.foldl_cons, List.foldl_nil, hlow]; omega
  next h2 =>
  split
  next h3 =>
    obtain ⟨h, hd⟩ := hfirst 0x80#32 16 rfl (by decide) h3
    have : BitVec.toNat (0x80#32) = 128 := rfl
    refine ⟨_, _, ui.toNat / 2 ^ 16, rfl, ?_, ?_, hd, ?_⟩
    · rw [h]; simp only [List.length_cons, List.length_nil]; omega
    · rw [h]; omega
    · simp only [appendBytes, List.foldl_cons, List.foldl_nil, hlow, hbyte]; omega
  next h3 =>
    obtain ⟨h, hd⟩ := hfirst 0xc0#32 24 rfl (by decide) hui
    have : BitVec.toNat (0xc0#32) = 192 := rfl
    refine ⟨_, _, ui.toNat / 2 ^ 24, rfl, ?_, ?_, hd, ?_⟩
    · rw [h]; simp only [List.length_cons, List.length_nil]; omega
    · rw [h]; omega
    · simp only [appendBytes, List.foldl_cons, List.foldl_nil, hlow, hbyte]; omega

/-- Every unsigned number below `2 ^ 30` is read back. -/
theorem decodes_readUint {n : Nat} (h : n < 2 ^ 30) :
    Decodes place readUint (writeUint n) n := by
  have hui : (BitVec.ofNat 32 n).toNat = n := by
    rw [BitVec.toNat_ofNat, Nat.mod_eq_of_lt (by omega)]
  obtain ⟨b0, bytes, acc, hw, hlen, hmod, hacc, hval⟩ :=
    @writeNum_eq 6 0 (BitVec.ofNat 32 n) rfl (by decide) (by omega)
  rw [writeUint, hw]
  have hz : BitVec.toNat (0 : BitVec 32) = 0 := rfl
  exact decodes_readUint_of hlen (by rw [hmod, hz, Nat.zero_add, hval, hui]) (by omega)

/-- Every machine integer of `30` bits is read back. -/
theorem decodes_readInt {i : Int} (hlo : -2 ^ 29 ≤ i) (hhi : i < 2 ^ 29) :
    Decodes place readInt (writeInt i) i := by
  -- The two signs run the same code on the magnitude, so both are one case.
  have key : ∀ (sign : BitVec 32) (m : Nat), sign = 0 ∨ sign = 0x20 → m < 2 ^ 29 →
      Decodes place readInt (writeNum 5 sign (BitVec.ofNat 32 m))
        (if sign = 0 then (m : Int) else -m - 1) := by
    intro sign m hsign hm
    have hm' : (BitVec.ofNat 32 m).toNat = m := by
      rw [BitVec.toNat_ofNat, Nat.mod_eq_of_lt (by omega)]
    have hs : sign.toNat = 0 ∨ sign.toNat = 32 := by
      cases hsign with
      | inl h => exact .inl (by rw [h]; rfl)
      | inr h => exact .inr (by rw [h]; rfl)
    obtain ⟨b0, bytes, acc, hw, hlen, hmod, hacc, hval⟩ :=
      @writeNum_eq 5 sign (BitVec.ofNat 32 m) (by omega) (by omega)
        (by omega)
    rw [hm'] at hval
    have hlow : (b0 &&& 0x1f).setWidth 32 = BitVec.ofNat 32 acc := by
      apply BitVec.eq_of_toNat_eq
      rw [BitVec.toNat_setWidth, toNat_and_low 5 rfl, BitVec.toNat_ofNat]
      omega
    have htoInt : (BitVec.ofNat 32 m).toInt = m := by
      rw [BitVec.toInt_eq_toNat_of_lt (by omega), hm']
    have hd := (decodes_shiftIn (w := 32) (by decide) bytes acc).bind_pure
      (f := fun v => if b0 &&& 0x20 ≠ 0 then -v.toInt - 1 else v.toInt)
    rw [hval, htoInt] at hd
    have hres : (if b0 &&& 0x20 ≠ 0 then -(m : Int) - 1 else m)
        = if sign = 0 then (m : Int) else -m - 1 := by
      cases hsign with
      | inl h =>
          have hz : sign.toNat = 0 := by rw [h]; rfl
          rw [if_neg fun hc => by have := (and_ne_zero_iff 5 rfl).mp hc; omega, if_pos h]
      | inr h =>
          have hz : sign.toNat = 32 := by rw [h]; rfl
          rw [if_pos ((and_ne_zero_iff 5 rfl).mpr (by omega)),
            if_neg fun hc => by rw [hc] at hz; exact absurd hz (by decide)]
    rw [hw, ← hres]
    refine (decodes_getb b0).cons ?_
    rw [toNat_ushiftRight_six, hlen, hlow]
    exact hd
  unfold writeInt
  split
  next h =>
    obtain ⟨m, hm⟩ := Int.eq_ofNat_of_zero_le (show 0 ≤ -(i + 1) by omega)
    have hk := key 0x20 m (.inr rfl) (by omega)
    rw [hm]
    rwa [if_neg (by decide), show -(m : Int) - 1 = i by omega] at hk
  next h =>
    obtain ⟨m, hm⟩ := Int.eq_ofNat_of_zero_le (show 0 ≤ i by omega)
    have hk := key 0 m (.inl rfl) (by omega)
    rw [hm]
    rwa [if_pos rfl] at hk

/-! ### Strings and sequences -/

/-- The bytes that are shifted in are digits to the base `256`, so `n` of them add eight bits
each. The number does not lose its top bits as long as there is room for them. -/
theorem toNat_lt_of_shiftIn {w n k : Nat} {acc v : BitVec w} {is is' : Instream}
    (h : (shiftIn n acc).run is = .ok (v, is')) (hacc : acc.toNat < 2 ^ k)
    (hw : k + 8 * n ≤ w) : v.toNat < 2 ^ (k + 8 * n) := by
  induction n generalizing acc k is with
  | zero =>
      cases h
      exact hacc
  | succ n ih =>
      obtain ⟨b, is₁, -, h⟩ := Decoder.run_bind_ok.mp h
      rw [shiftLeft_or_byte (by omega)] at h
      have hb : b.toNat < 256 := b.isLt
      have hpow : 2 ^ (k + 8) = 2 ^ k * 256 := Nat.pow_add 2 k 8
      have hnew : (BitVec.ofNat w (acc.toNat * 256 + b.toNat)).toNat < 2 ^ (k + 8) := by
        rw [BitVec.toNat_ofNat]
        have hle := Nat.mod_le (acc.toNat * 256 + b.toNat) (2 ^ w)
        omega
      have hrest := ih h hnew (by omega)
      rwa [show k + 8 * (n + 1) = k + 8 + 8 * n by omega]

/-- Whatever the bytes are, `read_int` returns a number of at most `29` bits and a sign: five
bits of it come from the first byte and `24` from the three that may follow. -/
theorem readInt_range {i : Int} {is is' : Instream} (h : readInt.run is = .ok (i, is')) :
    -2 ^ 29 ≤ i ∧ i < 2 ^ 29 := by
  obtain ⟨b0, is₁, -, h⟩ := Decoder.run_bind_ok.mp h
  obtain ⟨v, is₂, hv, h⟩ := Decoder.run_bind_ok.mp h
  have hcount : (b0 >>> 6).toNat ≤ 3 := by
    rw [toNat_ushiftRight_six]
    have hb : b0.toNat < 256 := b0.isLt
    omega
  have hlow : ((b0 &&& 0x1f).setWidth 32).toNat < 2 ^ 5 := by
    rw [BitVec.toNat_setWidth, toNat_and_low 5 rfl]
    omega
  have hlt := toNat_lt_of_shiftIn hv hlow (by omega)
  have hle : 2 ^ (5 + 8 * (b0 >>> 6).toNat) ≤ 2 ^ 29 :=
    Nat.pow_le_pow_right (by decide) (by omega)
  have hint : v.toInt = v.toNat := BitVec.toInt_eq_toNat_of_lt (by omega)
  cases h
  rw [hint]
  split
  · omega
  · omega

/-- A byte string is read back, whatever bytes it holds. -/
theorem decodes_readString {s : List Byte} (h : s.length < 2 ^ 30) :
    Decodes place readString (writeString s) s := by
  have hd : Decodes place (getb.times s.length) (s.flatMap fun b => [b]) (s.map id) :=
    Decodes.times fun b _ => decodes_getb b
  rw [List.flatMap_singleton', List.map_id] at hd
  exact (decodes_readUint h).bind hd

/-- A sequence is read back when each of its elements is. -/
theorem decodes_readSeq {α ι : Type} {read : Reader α} {enc : ι → List Byte} {val : ι → α}
    {xs : List ι} (hlen : xs.length < 2 ^ 30)
    (h : ∀ x ∈ xs, Decodes place read (enc x) (val x)) :
    Decodes place (readSeq read) (writeUint xs.length ++ xs.flatMap enc) (xs.map val) :=
  (decodes_readUint hlen).bind (Decodes.times h)

end SmlnjCfg.Asdl
