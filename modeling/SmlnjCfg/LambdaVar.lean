import SmlnjCfg.Asdl.FilePickle

/-!
# `SmlnjCfg.LambdaVar`: the codec of lambda variables

The front end writes a lambda variable as its identifier: three bits of
byte count and five bits of value in the first byte, then the further
bytes, most significant first. The C++ reader accumulates the bytes in a
`uint64_t` and returns it through a cast to `int`. The theorems:

* `writeLvar_eq`: what the writer writes.
* `decodes_smlReadLvar`: the front end's own reader gives every identifier
  back.
* `decodes_readLvar`: the C++ reader gives the low 32 bits, sign extended.
* `readLvar_writeLvar_iff`: so it gives back exactly the identifiers below
  `2 ^ 31`.
-/

set_option autoImplicit false

namespace SmlnjCfg

open Asdl

/-- A lambda variable: `LambdaVar::lvar` is an `int64_t`, and the front end's
identifier is an SML `int`. -/
abbrev LVar := Int

namespace LambdaVar

/-! ### The writer and reader of the front end

SML's `word` has 63 bits on a 64-bit machine. -/

/-- The mask for identifiers: two bits less than the word size. -/
def mask : BitVec 63 := (1#63 <<< (63 - 2)) - 1#63

/-- `cvt`: the bytes of a word in front of `bytes`, with no leading zero. -/
def cvt (w : BitVec 63) (bytes : List Byte) : List Byte :=
  if w = 0 then bytes else cvt (w >>> 8) (w.setWidth 8 :: bytes)
termination_by w.toNat
decreasing_by
  rename_i h
  have hne : w.toNat ≠ 0 := fun hz => h (BitVec.eq_of_toNat_eq hz)
  rw [BitVec.toNat_ushiftRight, Nat.shiftRight_eq_div_pow]
  omega

/-- `write_lvar`. -/
def writeLvar (lv : LVar) : List Byte :=
  match cvt (BitVec.ofInt 63 lv &&& mask) [] with
  | [] => [0]
  | b0 :: rest =>
      -- A byte of more than five bits needs a first byte of its own.
      let (b0, rest) : Byte × List Byte := if b0 ≤ 0x1f#8 then (b0, rest) else (0, b0 :: rest)
      let n : BitVec 63 := BitVec.ofNat 63 rest.length <<< 5
      (n.setWidth 8 ||| b0) :: rest

/-- `decode` of the front end's `read_lvar`. -/
def decode : Nat → BitVec 63 → Reader LVar
  | 0, w => pure w.toInt
  | n + 1, w => do
      let b ← getb
      decode n ((w <<< 8) ||| b.setWidth 63)

/-- The front end's `read_lvar`. -/
def smlReadLvar : Reader LVar := do
  let b0 ← getb
  decode (b0 >>> 5).toNat ((b0 &&& 0x1f).setWidth 63)

/-! ### The C++ reader -/

/-- `read_lvar`: the accumulated `uint64_t` is returned as
`static_cast<int>(v)`. -/
def readLvar : Reader LVar := do
  let b0 ← getb
  let v : BitVec 64 ← shiftIn (b0 >>> 5).toNat ((b0 &&& 0x1f).setWidth 64)
  pure (v.setWidth 32).toInt

/-- `read_lvar_seq`. -/
def readLvarSeq : Reader (List LVar) := readSeq readLvar

/-! ### What is written -/

/-- The bytes `cvt` puts in front are the base-256 digits of the word, no more
than the word needs. -/
theorem cvt_eq (w : BitVec 63) (bytes : List Byte) :
    ∃ ds, cvt w bytes = ds ++ bytes ∧ appendBytes 0 ds = w.toNat ∧
      ∀ k, w.toNat < 256 ^ k → ds.length ≤ k := by
  induction hn : w.toNat using Nat.strongRecOn generalizing w bytes with
  | ind n ih =>
      subst hn
      unfold cvt
      split
      next h => exact ⟨[], rfl, by rw [h]; rfl, fun k _ => Nat.zero_le k⟩
      next h =>
        have hne : w.toNat ≠ 0 := fun hz => h (BitVec.eq_of_toNat_eq hz)
        have hshift : (w >>> 8).toNat = w.toNat / 256 := by
          rw [BitVec.toNat_ushiftRight, Nat.shiftRight_eq_div_pow]
        obtain ⟨ds, heq, hval, hlen⟩ :=
          ih (w >>> 8).toNat (by omega) (w >>> 8) (w.setWidth 8 :: bytes) rfl
        refine ⟨ds ++ [w.setWidth 8], by rw [heq, List.append_assoc]; rfl, ?_, ?_⟩
        · rw [appendBytes, List.foldl_append]
          show appendBytes 0 ds * 256 + (w.setWidth 8).toNat = w.toNat
          rw [hval, hshift, BitVec.toNat_setWidth]
          omega
        · intro k hk
          cases k with
          | zero => rw [Nat.pow_zero] at hk; omega
          | succ k =>
              have h256 := hlen k (by
                rw [hshift]
                exact Nat.div_lt_of_lt_mul (by rwa [Nat.pow_succ, Nat.mul_comm] at hk))
              rw [List.length_append, List.length_singleton]
              omega

/-- The first byte's value is the leading digit. -/
theorem appendBytes_cons (b : Byte) (bytes : List Byte) :
    appendBytes 0 (b :: bytes) = appendBytes b.toNat bytes := by
  show appendBytes (0 * 256 + b.toNat) bytes = _
  rw [Nat.zero_mul, Nat.zero_add]

/-- A leading digit is bounded by the value. -/
theorem mul_pow_le_appendBytes (acc : Nat) (bytes : List Byte) :
    acc * 256 ^ bytes.length ≤ appendBytes acc bytes := by
  induction bytes generalizing acc with
  | nil => rw [List.length_nil, Nat.pow_zero, Nat.mul_one]; exact Nat.le_refl _
  | cons b bytes ih =>
      refine Nat.le_trans ?_ (ih (acc * 256 + b.toNat))
      rw [List.length_cons, Nat.pow_succ, Nat.mul_comm (256 ^ _), ← Nat.mul_assoc]
      exact Nat.mul_le_mul_right _ (by omega)

/-- What `write_lvar` writes for an identifier the mask keeps: the count of
the further bytes, the five high bits, and the further bytes. -/
theorem writeLvar_eq {id : Int} (hlo : 0 ≤ id) (hhi : id < 2 ^ 61) :
    ∃ b0 bytes, writeLvar id = b0 :: bytes ∧ b0.toNat / 32 = bytes.length ∧
      (appendBytes (b0.toNat % 32) bytes : Int) = id := by
  obtain ⟨n, rfl⟩ := Int.eq_ofNat_of_zero_le hlo
  have hn : n < 2 ^ 61 := by omega
  have hmask : (BitVec.ofInt 63 n &&& mask).toNat = n := by
    have hm : mask.toNat = 2 ^ 61 - 1 := by decide
    rw [BitVec.toNat_and, hm, Nat.and_two_pow_sub_one_eq_mod, BitVec.toNat_ofInt]
    omega
  obtain ⟨ds, heq, hval, hlen⟩ := cvt_eq (BitVec.ofInt 63 n &&& mask) []
  rw [List.append_nil] at heq
  rw [hmask] at hval hlen
  have h8 : ds.length ≤ 8 := hlen 8 (by omega)
  -- The first byte packs a count of at most seven with five bits.
  have hpack : ∀ (b : Byte) (len : Nat), len ≤ 7 → b.toNat < 32 →
      ((BitVec.ofNat 63 len <<< 5).setWidth 8 ||| b).toNat = 32 * len + b.toNat := by
    intro b len hl hb
    have hshift : ((BitVec.ofNat 63 len <<< 5).setWidth 8).toNat = 32 * len := by
      rw [BitVec.toNat_setWidth, BitVec.toNat_shiftLeft, BitVec.toNat_ofNat,
        Nat.shiftLeft_eq]
      omega
    rw [toNat_or_of_lt 5 (by rw [hshift]; omega) (by omega), hshift]
  unfold writeLvar
  rw [heq]
  cases ds with
  | nil =>
      refine ⟨0, [], rfl, rfl, ?_⟩
      show ((appendBytes 0 [] : Nat) : Int) = n
      rw [hval]
  | cons b0 rest =>
      rw [appendBytes_cons] at hval
      rw [List.length_cons] at h8
      dsimp only
      split
      next h =>
        have hb : b0.toNat < 32 := by
          have : b0.toNat ≤ 31 := h
          omega
        have hp := hpack b0 rest.length (by omega) hb
        refine ⟨_, rest, rfl, by rw [hp]; omega, ?_⟩
        rw [hp, Nat.mul_add_mod, Nat.mod_eq_of_lt hb, hval]
      next h =>
        have hb : ¬ b0.toNat ≤ 31 := h
        -- Eight bytes of an identifier start with a byte of five bits.
        have h7 : rest.length + 1 ≤ 7 := by
          by_contra hc
          have h7 : rest.length = 7 := by omega
          have hle := mul_pow_le_appendBytes b0.toNat rest
          rw [h7, hval] at hle
          omega
        have hp := hpack 0 (b0 :: rest).length h7 (by decide)
        have hz : BitVec.toNat (0 : Byte) = 0 := rfl
        refine ⟨_, b0 :: rest, rfl, by rw [hp, hz]; omega, ?_⟩
        rw [hp, hz, Nat.mul_add_mod, Nat.zero_mod, appendBytes_cons, hval]

/-! ### What is read -/

/-- The first byte, as the readers take it apart. -/
theorem firstByte_fields (b0 : Byte) (w : Nat) :
    (b0 >>> 5).toNat = b0.toNat / 32 ∧
      (b0 &&& 0x1f).setWidth w = BitVec.ofNat w (b0.toNat % 32) := by
  refine ⟨by rw [BitVec.toNat_ushiftRight, Nat.shiftRight_eq_div_pow], ?_⟩
  apply BitVec.eq_of_toNat_eq
  rw [BitVec.toNat_setWidth, toNat_and_low 5 rfl, BitVec.toNat_ofNat]
  rfl

/-- The front end's `decode` and the fall-through switch read the same number. -/
theorem decode_eq_shiftIn (n : Nat) (w : BitVec 63) :
    decode n w = (do let v ← shiftIn n w; pure v.toInt) := by
  induction n generalizing w with
  | zero => rfl
  | succ n ih =>
      unfold decode shiftIn
      rw [bind_assoc]
      exact congrArg (getb >>= ·) (funext fun b => ih _)

/-- The front end reads every identifier back. -/
theorem decodes_smlReadLvar {id : Int} (hlo : 0 ≤ id) (hhi : id < 2 ^ 61) :
    Decodes place smlReadLvar (writeLvar id) id := by
  obtain ⟨b0, bytes, hw, hlen, hval⟩ := writeLvar_eq hlo hhi
  obtain ⟨hcount, hlow⟩ := firstByte_fields b0 63
  have hd := (decodes_shiftIn (w := 63) (by decide) bytes (b0.toNat % 32)).bind_pure
    (f := BitVec.toInt)
  have hid : (BitVec.ofNat 63 (appendBytes (b0.toNat % 32) bytes)).toInt = id := by
    have hlt : appendBytes (b0.toNat % 32) bytes < 2 ^ 61 := by
      have h : ((appendBytes (b0.toNat % 32) bytes : Nat) : Int) < 2 ^ 61 := hval ▸ hhi
      omega
    rw [BitVec.toInt_eq_toNat_of_lt (by rw [BitVec.toNat_ofNat]; omega),
      BitVec.toNat_ofNat, Nat.mod_eq_of_lt (by omega), hval]
  rw [hid] at hd
  rw [hw]
  refine (decodes_getb b0).cons ?_
  rw [hcount, hlen, hlow, decode_eq_shiftIn]
  exact hd

/-- The C++ reader consumes the same bytes and returns the low 32 bits of the
identifier, sign extended. -/
theorem decodes_readLvar {id : Int} (hlo : 0 ≤ id) (hhi : id < 2 ^ 61) :
    Decodes place readLvar (writeLvar id) (BitVec.ofInt 32 id).toInt := by
  obtain ⟨b0, bytes, hw, hlen, hval⟩ := writeLvar_eq hlo hhi
  obtain ⟨hcount, hlow⟩ := firstByte_fields b0 64
  have hd := (decodes_shiftIn (w := 64) (by decide) bytes (b0.toNat % 32)).bind_pure
    (f := fun v => (v.setWidth 32).toInt)
  have hid : (BitVec.ofNat 64 (appendBytes (b0.toNat % 32) bytes)).setWidth 32
      = BitVec.ofInt 32 id := by
    apply BitVec.eq_of_toNat_eq
    rw [BitVec.toNat_setWidth, BitVec.toNat_ofNat, BitVec.toNat_ofInt, ← hval]
    omega
  rw [hid] at hd
  rw [hw]
  refine (decodes_getb b0).cons ?_
  rw [hcount, hlen, hlow]
  exact hd

/-- The low 32 bits, sign extended, are the identifier exactly when it is
below `2 ^ 31`. -/
theorem toInt_ofInt_eq_iff {id : Int} (hlo : 0 ≤ id) (hhi : id < 2 ^ 61) :
    (BitVec.ofInt 32 id).toInt = id ↔ id < 2 ^ 31 := by
  rw [BitVec.toInt_ofInt, Int.bmod_def]
  have h : (2 : Int) ^ 31 = 2147483648 := rfl
  have h' : ((2 ^ 32 : Nat) : Int) = 4294967296 := rfl
  rw [h, h']
  split <;> constructor <;> intro _ <;> omega

/-- An identifier below `2 ^ 31` is read back by the C++ reader. -/
theorem decodes_readLvar_of_lt {id : Int} (hlo : 0 ≤ id) (hhi : id < 2 ^ 31) :
    Decodes place readLvar (writeLvar id) id := by
  have h61 : id < 2 ^ 61 := Int.lt_trans hhi (by decide)
  have hd := decodes_readLvar hlo h61
  rwa [(toInt_ofInt_eq_iff hlo h61).mpr hhi] at hd

/-- The codec gives an identifier back, in both readers and consuming exactly
its bytes, if and only if it is below `2 ^ 31`; and a written sequence is
read back if and only if all of its identifiers are. -/
theorem readLvar_writeLvar_iff {id : Int} (hlo : 0 ≤ id) (hhi : id < 2 ^ 61)
    {P : ASDLFilePickle} (hP : P.Documented) {ids : List LVar} (hlen : ids.length < 2 ^ 30)
    (hids : ∀ x ∈ ids, 0 ≤ x ∧ x < 2 ^ 61) (tl : List Byte) :
    (readLvar.run (place (writeLvar id ++ tl)) = .ok (id, place tl) ∧
      smlReadLvar.run (place (writeLvar id ++ tl)) = .ok (id, place tl) ↔ id < 2 ^ 31) ∧
    (readLvarSeq.run (place (P.writeSeq writeLvar ids ++ tl)) = .ok (ids, place tl) ↔
      ∀ x ∈ ids, x < 2 ^ 31) := by
  refine ⟨?_, ?_⟩
  · have hcpp := decodes_readLvar hlo hhi tl
    have hsml := decodes_smlReadLvar hlo hhi tl
    rw [← toInt_ofInt_eq_iff hlo hhi, hcpp, hsml]
    simp
  · have hd : Decodes place (readSeq readLvar) (P.writeSeq writeLvar ids)
        (ids.map fun x => (BitVec.ofInt 32 x).toInt) :=
      hP.decodes_readSeq hlen fun x hx => decodes_readLvar (hids x hx).1 (hids x hx).2
    have hmap : ids.map (fun x => (BitVec.ofInt 32 x).toInt) = ids ↔
        ∀ x ∈ ids, x < 2 ^ 31 := by
      have h := List.map_inj_left (l := ids) (f := fun x => (BitVec.ofInt 32 x).toInt)
        (g := fun x => x)
      rw [List.map_id'] at h
      rw [h]
      exact forall₂_congr fun x hx => toInt_ofInt_eq_iff (hids x hx).1 (hids x hx).2
    rw [← hmap, readLvarSeq, hd tl]
    simp

/-- The codec at `5`, and a sequence of two identifiers. -/
theorem readLvar_writeLvar_five :
    (readLvar.run (place (writeLvar 5 ++ [7])) = .ok (5, place [7]) ∧
      smlReadLvar.run (place (writeLvar 5 ++ [7])) = .ok (5, place [7]) ↔ (5 : Int) < 2 ^ 31) ∧
    (readLvarSeq.run (place (ASDLFilePickle.likeCpp.writeSeq writeLvar [5, 300] ++ [7]))
        = .ok ([5, 300], place [7]) ↔ ∀ x ∈ [(5 : Int), 300], x < 2 ^ 31) :=
  readLvar_writeLvar_iff (by decide) (by decide) ASDLFilePickle.documented_likeCpp
    (by decide) (by decide) [7]

/-- The identifier `2 ^ 31` comes back as `-2 ^ 31`, and `2 ^ 32 + 1` is merged
with `1`. -/
theorem readLvar_writeLvar_large :
    readLvar.run (place (writeLvar (2 ^ 31) ++ [])) = .ok (-2 ^ 31, place []) ∧
      readLvar.run (place (writeLvar (2 ^ 32 + 1) ++ [])) = .ok (1, place []) ∧
      readLvar.run (place (writeLvar 1 ++ [])) = .ok (1, place []) ∧
      ¬ ∀ (id : Int) (tl : List Byte), 0 ≤ id → id < 2 ^ 61 →
        readLvar.run (place (writeLvar id ++ tl)) = .ok (id, place tl) := by
  have h31 := @decodes_readLvar (2 ^ 31) (by decide) (by decide) []
  have h32 := @decodes_readLvar (2 ^ 32 + 1) (by decide) (by decide) []
  refine ⟨h31, h32, decodes_readLvar (by decide) (by decide) [], fun hall => ?_⟩
  have hc := hall (2 ^ 31) [] (by decide) (by decide)
  rw [h31] at hc
  exact absurd hc (by decide)

end LambdaVar

end SmlnjCfg
