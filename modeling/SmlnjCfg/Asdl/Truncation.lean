import SmlnjCfg.LambdaVar
import SmlnjCfg.Lib.Truncation

/-!
# `SmlnjCfg.Asdl.Truncation`: the basic readers at the end of the input

`getb` tests the stream before it reads, so a read past the last byte
returns `0xff` and only the next one reports the end. `supply` is that
stream. For each basic value, the theorems say whether a missing last byte
is noticed:

* `reads_readInt`, `reads_readLvar`: not if the number has further bytes,
  the last of which is then taken to be `0xff`.
* `reads_readSeq`: not if the last element does not notice it.
* `reads_readBool`, `reads_readInteger`: always.
-/

set_option autoImplicit false

namespace SmlnjCfg.Asdl

open Supply LambdaVar

/-- The input stream: when it is dry, it has handed out `0xff` for a byte that was not there.
Every error but the one for missing fuel reports the input. -/
def supply : Supply Byte Instream ReadError :=
  { place := place, dry := ⟨[], false⟩, Reports := fun e => e ≠ .outOfFuel }

/-! ### Readers of a dry stream -/

/-- A read from a stream that is not good stops the program. -/
theorem fails_getb : supply.Fails getb supply.dry := ⟨.invalidIOState, nofun, rfl⟩

/-- So does a tag. -/
theorem fails_readTag8 : supply.Fails readTag8 supply.dry := fails_getb.bind

/-- A wrong tag stops the program too, on any stream. -/
theorem fails_invalidTag {α : Type} (tag : Nat) (tyName : String) (is : Instream) :
    supply.Fails (invalidTag tag tyName : Reader α) is := ⟨.invalidTag tag tyName, nofun, rfl⟩

/-- The first byte of a word fails. -/
theorem fails_readUint : supply.Fails readUint supply.dry := fails_getb.bind

/-- The first byte of a machine integer fails. -/
theorem fails_readInt : supply.Fails readInt supply.dry := fails_getb.bind

/-- The tag of a boolean fails. -/
theorem fails_readBool : supply.Fails readBool supply.dry := fails_readTag8.bind

/-- The length of a string fails. -/
theorem fails_readString : supply.Fails readString supply.dry := fails_readUint.bind

/-- The length of a sequence fails, whatever the elements are. -/
theorem fails_readSeq {α : Type} (read : Reader α) : supply.Fails (readSeq read) supply.dry :=
  fails_readUint.bind

/-- The first byte of a lambda variable fails. -/
theorem fails_readLvar : supply.Fails readLvar supply.dry := fails_getb.bind

/-! ### Bytes and tags -/

variable {N : Nat}

/-- A missing byte is not noticed: `good()` is tested before the byte is taken, and not after. -/
theorem reads_getb (b : Byte) : supply.Reads N getb [b] true where
  nonempty := ⟨b⟩
  ne_nil _ := List.cons_ne_nil b []
  decodes _ := ⟨b, decodes_getb b⟩
  cut p hp hlen _ := by
    obtain rfl : p = [] := List.length_eq_zero_iff.mp (by simpa using hlen)
    exact ⟨0xff, rfl⟩

/-- A tag in front of fields: `0xff` is no tag. The hypothesis `hff` says so of the reader. -/
theorem reads_tag {β : Type} {n : Nat} (hn : n < 256) {f : Nat → Reader β} {ts : List Byte}
    {last : Bool} {tyName : String} (h : supply.Reads N (f n) ts last)
    (hff : f 255 = invalidTag 255 tyName) :
    supply.Reads (N + 1) (readTag8 >>= f) (writeTag8 n ++ ts) last := by
  refine Reads.bind_of (fun _ => decodes_readTag8 hn) (fun p hp hlen _ => .inr ⟨255, ?_, ?_⟩) h
    (by rw [writeTag8, List.length_singleton, Nat.add_comm])
  · obtain rfl : p = [] := List.length_eq_zero_iff.mp (by simpa [writeTag8] using hlen)
    exact rfl
  · rw [hff]
    exact fails_invalidTag 255 tyName _

/-- A tag of a constructor without fields, which is all there is. -/
theorem reads_con {β : Type} {n : Nat} (hn : n < 256) {f : Nat → Reader β} {b : β}
    {tyName : String} (h : f n = pure b) (hff : f 255 = invalidTag 255 tyName) :
    supply.Reads (N + 1) (readTag8 >>= f) (writeTag8 n) false := by
  have hpure : supply.Reads N (f n) [] false := h ▸ Reads.pure b
  have hr := reads_tag hn hpure hff
  rwa [List.append_nil] at hr

/-- The readers of booleans report a wrong tag, and `0xff` is one. -/
theorem reads_readBool (b : Bool) : supply.Reads (N + 1) readBool (writeBool b) false := by
  cases b with
  | false => exact reads_con (by decide) rfl rfl
  | true => exact reads_con (by decide) rfl rfl

/-! ### Numbers -/

/-- The fall-through switch in front of too few bytes: only the last one may be made up. The read
of a second missing byte finds the stream not good. -/
theorem shiftIn_short {w : Nat} {n : Nat} {p : List Byte} (h : p.length < n) (v : BitVec w) :
    if p.length + 1 = n then
      ∃ v' : BitVec w, (shiftIn n v).run (place p)
        = .ok ((v' <<< 8) ||| (0xff : Byte).setWidth w, supply.dry)
    else (shiftIn n v).run (place p) = .error .invalidIOState := by
  induction n generalizing p v with
  | zero => exact absurd h (Nat.not_lt_zero _)
  | succ n ih =>
      cases p with
      | nil =>
          cases n with
          | zero => exact ⟨v, rfl⟩
          | succ n => exact rfl
      | cons b p =>
          have hp := ih (p := p) (by simpa using h) ((v <<< 8) ||| b.setWidth w)
          simp only [List.length_cons, Nat.add_right_cancel_iff]
          exact hp

/-- A reader of a number: a first byte with the count of the others, and those. The three readers
of numbers differ in where the count is, what the first byte holds, and how the sign comes in. -/
def readNumber {β : Type} {w : Nat} (count : Byte → Nat) (low : Byte → BitVec w)
    (val : Byte → BitVec w → β) : Reader β := do
  let b0 ← getb
  let v ← shiftIn (count b0) (low b0)
  pure (val b0 v)

/-- A number in front of too few bytes: if there are further bytes, the last one may be made up.
If the first byte is missing, the made-up one asks for more. -/
theorem readNumber_short {β : Type} {w : Nat} (count : Byte → Nat) (low : Byte → BitVec w)
    (val : Byte → BitVec w → β) {b0 : Byte} {bytes p : List Byte}
    (hlen : count b0 = bytes.length) (hff : 0 < count 0xff) (hp : p <+: b0 :: bytes)
    (hplen : p.length < (b0 :: bytes).length) :
    if (!bytes.isEmpty) = true ∧ p.length + 1 = (b0 :: bytes).length then
      ∃ v' : BitVec w, (readNumber count low val).run (place p)
        = .ok (val b0 ((v' <<< 8) ||| (0xff : Byte).setWidth w), supply.dry)
    else supply.Fails (readNumber count low val) (place p) := by
  cases p with
  | nil =>
      rw [if_neg]
      · have hrun : getb.run (place []) = .ok (0xff, supply.dry) := rfl
        refine Fails.of_bind hrun (Fails.bind ?_)
        obtain ⟨n, hn⟩ := Nat.exists_eq_add_of_lt hff
        rw [Nat.zero_add] at hn
        rw [hn]
        exact fails_getb.bind
      · rintro ⟨hne, hone⟩
        cases bytes with
        | nil => simp at hne
        | cons b bytes => simp at hone
  | cons b p =>
      obtain ⟨rfl, -⟩ := List.cons_prefix_cons.mp hp
      have hlt : p.length < count b := by rw [hlen]; simpa using hplen
      have hshort := shiftIn_short hlt (low b)
      rw [hlen] at hshort
      have hrun : getb.run (place (b :: p)) = .ok (b, place p) := rfl
      by_cases h : p.length + 1 = bytes.length
      · rw [if_pos h] at hshort
        obtain ⟨v', hv⟩ := hshort
        rw [if_pos]
        · refine ⟨v', ?_⟩
          rw [readNumber, StateT.run_bind, hrun]
          show StateT.run (shiftIn (count b) (low b) >>= fun v => pure (val b v)) (place p) = _
          rw [StateT.run_bind, hlen, hv]
          rfl
        · refine ⟨?_, by simpa using h⟩
          cases bytes with
          | nil => simp at h
          | cons b bytes => rfl
      · rw [if_neg h] at hshort
        rw [if_neg fun hc => h (by simpa using hc.2)]
        refine Fails.of_bind hrun (Fails.bind ⟨.invalidIOState, nofun, ?_⟩)
        rw [hlen]
        exact hshort

/-- A number: a missing last byte is not noticed exactly if it has further bytes. -/
theorem reads_readNumber {β : Type} {w : Nat} (hw : 8 ≤ w) {count : Byte → Nat}
    {low : Byte → BitVec w} {val : Byte → BitVec w → β} {b0 : Byte} {bytes : List Byte}
    (hlen : count b0 = bytes.length) (hff : 0 < count 0xff) :
    supply.Reads N (readNumber count low val) (b0 :: bytes) !bytes.isEmpty where
  nonempty := ⟨val b0 0⟩
  ne_nil _ := List.cons_ne_nil b0 bytes
  decodes _ := by
    have hd := (decodes_shiftIn hw bytes (low b0).toNat).bind_pure (f := val b0)
    rw [BitVec.ofNat_toNat, BitVec.setWidth_eq] at hd
    rw [← hlen] at hd
    exact ⟨_, (decodes_getb b0).cons hd⟩
  cut p hp hplen _ := by
    have hshort := readNumber_short count low val hlen hff hp hplen
    split at hshort
    next h =>
      obtain ⟨v', hrun⟩ := hshort
      exact (if_pos h).mpr ⟨_, hrun⟩
    next h => exact (if_neg h).mpr hshort

/-- What `writeNum` writes has further bytes unless the number fits the first. -/
theorem writeNum_shape {k : Nat} {sign ui : BitVec 32} (hs : sign.toNat % 2 ^ k = 0)
    (hlim : sign.toNat + 2 ^ k ≤ 64) (hui : ui.toNat < 2 ^ (k + 24)) :
    ∃ b0 bytes, writeNum k sign ui = b0 :: bytes ∧ (b0 >>> 6).toNat = bytes.length ∧
      (!bytes.isEmpty) = decide (2 ^ k ≤ ui.toNat) := by
  obtain ⟨b0, bytes, acc, hw, hlen, -⟩ := writeNum_eq hs hlim hui
  refine ⟨b0, bytes, hw, by rw [toNat_ushiftRight_six, hlen], ?_⟩
  unfold writeNum at hw
  split at hw
  next h =>
    obtain ⟨-, rfl⟩ := List.cons.inj hw
    simpa using h
  next h =>
    have hle : 2 ^ k ≤ ui.toNat := Nat.le_of_not_lt h
    split at hw
    next h2 =>
      obtain ⟨-, rfl⟩ := List.cons.inj hw
      simpa using hle
    next h2 =>
      split at hw
      next h3 =>
        obtain ⟨-, rfl⟩ := List.cons.inj hw
        simpa using hle
      next h3 =>
        obtain ⟨-, rfl⟩ := List.cons.inj hw
        simpa using hle

/-- A machine integer that is encoded in more than one byte: it does not fit five bits and a
sign. -/
def intWide (i : Int) : Bool := decide (i < -32 ∨ 32 ≤ i)

/-- A lambda variable that is encoded in more than one byte. The writer masks the identifier
first. -/
def lvarWide (x : Int) : Bool := decide (32 ≤ x % 2 ^ 61)

/-- A word of `read_uint`, which has six bits in the first byte. -/
theorem reads_readUint {n : Nat} (h : n < 2 ^ 30) :
    supply.Reads N readUint (writeUint n) (decide (64 ≤ n)) := by
  have hui : (BitVec.ofNat 32 n).toNat = n := by
    rw [BitVec.toNat_ofNat, Nat.mod_eq_of_lt (by omega)]
  obtain ⟨b0, bytes, hw, hlen, hwide⟩ :=
    @writeNum_shape 6 0 (BitVec.ofNat 32 n) rfl (by decide) (by omega)
  rw [writeUint, hw]
  rw [hui] at hwide
  exact hwide ▸ reads_readNumber (by decide) hlen (by decide)

/-- A machine integer of `read_int`, which has five bits and a sign there. Both signs are written
by `writeNum`, a negative number as its complement. -/
theorem reads_readInt {i : Int} (hlo : -2 ^ 29 ≤ i) (hhi : i < 2 ^ 29) :
    supply.Reads N readInt (writeInt i) (intWide i) := by
  have key : ∀ (sign : BitVec 32) (m : Nat), sign = 0 ∨ sign = 0x20 → m < 2 ^ 29 →
      supply.Reads N readInt (writeNum 5 sign (BitVec.ofNat 32 m)) (decide (32 ≤ m)) := by
    intro sign m hsign hm
    have hm' : (BitVec.ofNat 32 m).toNat = m := by
      rw [BitVec.toNat_ofNat, Nat.mod_eq_of_lt (by omega)]
    have hs : sign.toNat = 0 ∨ sign.toNat = 32 := by
      cases hsign with
      | inl h => exact .inl (by rw [h]; rfl)
      | inr h => exact .inr (by rw [h]; rfl)
    obtain ⟨b0, bytes, hw, hlen, hwide⟩ :=
      @writeNum_shape 5 sign (BitVec.ofNat 32 m) (by omega) (by omega) (by omega)
    rw [hw]
    rw [hm'] at hwide
    exact hwide ▸ reads_readNumber (by decide) hlen (by decide)
  unfold writeInt
  split
  next h =>
    obtain ⟨m, hm⟩ := Int.eq_ofNat_of_zero_le (show 0 ≤ -(i + 1) by omega)
    have hk := key 0x20 m (.inr rfl) (by omega)
    rw [hm]
    rwa [show decide (32 ≤ m) = intWide i by unfold intWide; congr 1; ext; omega] at hk
  next h =>
    obtain ⟨m, rfl⟩ := Int.eq_ofNat_of_zero_le (show 0 ≤ i by omega)
    have hk := key 0 m (.inl rfl) (by omega)
    rwa [show decide (32 ≤ m) = intWide m by unfold intWide; congr 1; ext; omega] at hk

/-- The identifier that the mask keeps, as a number. -/
theorem toNat_and_lvarMask (x : Int) :
    ((BitVec.ofInt 63 x &&& LambdaVar.mask).toNat : Int) = x % 2 ^ 61 := by
  have hm : LambdaVar.mask.toNat = 2 ^ 61 - 1 := by decide
  have hx : 0 ≤ x % 2 ^ 63 := Int.emod_nonneg x (by decide)
  rw [BitVec.toNat_and, hm, Nat.and_two_pow_sub_one_eq_mod, BitVec.toNat_ofInt, Int.natCast_mod]
  show (((x % 2 ^ 63).toNat : Nat) : Int) % 2 ^ 61 = _
  rw [Int.toNat_of_nonneg hx]
  exact Int.emod_emod_of_dvd x (by decide)

/-- An identifier of five bits is written in one byte. -/
theorem writeLvar_small {x : Int} (h : x % 2 ^ 61 < 32) : ∃ b0, writeLvar x = [b0] := by
  have hw : (BitVec.ofInt 63 x &&& LambdaVar.mask).toNat < 32 := by
    have hx := toNat_and_lvarMask x
    generalize x % 2 ^ 61 = m at h hx
    omega
  obtain ⟨ds, heq, hval, hlen⟩ := cvt_eq (BitVec.ofInt 63 x &&& LambdaVar.mask) []
  rw [List.append_nil] at heq
  have h1 : ds.length ≤ 1 := hlen 1 (by omega)
  unfold writeLvar
  rw [heq]
  cases ds with
  | nil => exact ⟨0, rfl⟩
  | cons b ds =>
      obtain rfl : ds = [] := List.length_eq_zero_iff.mp (by simpa using h1)
      rw [appendBytes_cons] at hval
      have hb : b ≤ 0x1f#8 := by
        show b.toNat ≤ 31
        have : b.toNat = (BitVec.ofInt 63 x &&& LambdaVar.mask).toNat := hval
        omega
      simp only [if_pos hb]
      exact ⟨_, rfl⟩

/-- What `write_lvar` writes has further bytes unless the identifier that the mask keeps fits the
first, which has five bits for it beside the count. -/
theorem writeLvar_shape (x : Int) :
    ∃ b0 bytes, writeLvar x = b0 :: bytes ∧ (b0 >>> 5).toNat = bytes.length ∧
      (!bytes.isEmpty) = lvarWide x := by
  have hlo : 0 ≤ x % 2 ^ 61 := Int.emod_nonneg _ (by decide)
  have hhi : x % 2 ^ 61 < 2 ^ 61 := Int.emod_lt_of_pos _ (by decide)
  have hmask : writeLvar x = writeLvar (x % 2 ^ 61) := by
    have hid : BitVec.ofInt 63 x &&& mask = BitVec.ofInt 63 (x % 2 ^ 61) &&& mask := by
      apply BitVec.eq_of_toNat_eq
      apply Int.ofNat_inj.mp
      rw [toNat_and_lvarMask, toNat_and_lvarMask]
      exact (Int.emod_eq_of_lt hlo hhi).symm
    rw [writeLvar, writeLvar, hid]
  obtain ⟨b0, bytes, hw, hlen, hval⟩ := writeLvar_eq hlo hhi
  have hwide : lvarWide x = decide (32 ≤ x % 2 ^ 61) := rfl
  have hsmall := writeLvar_small (x := x)
  refine ⟨b0, bytes, hmask.trans hw, ?_, ?_⟩
  · rw [BitVec.toNat_ushiftRight, Nat.shiftRight_eq_div_pow]
    exact hlen
  · rw [hmask, hw, ← hval] at hsmall
    rw [hwide, ← hval]
    cases bytes with
    | nil =>
        have hlt : ¬ (32 : Int) ≤ ((b0.toNat % 32 : Nat) : Int) := by omega
        exact (decide_eq_false hlt).symm
    | cons b bytes =>
        refine (decide_eq_true ?_).symm
        by_contra hc
        obtain ⟨b0', h'⟩ := hsmall (by omega)
        simp at h'

/-- A lambda variable, whatever its identifier is. One that is not read back is read as another
one, and that is no error. -/
theorem reads_readLvar (x : LVar) : supply.Reads N readLvar (writeLvar x) (lvarWide x) := by
  obtain ⟨b0, bytes, hw, hlen, hwide⟩ := writeLvar_shape x
  rw [hw]
  exact hwide ▸ reads_readNumber (by decide) hlen (by decide)

/-! ### Strings and sequences -/

/-- A length in front of too few bytes: `0xff` is not the first byte of a short length, and as the
last byte it makes the length positive. So the elements are asked for, and their reader fails. -/
theorem readUint_short {n : Nat} (hn : n < 2 ^ 30) {p : List Byte} (hp : p <+: writeUint n)
    (hlen : p.length < (writeUint n).length) :
    supply.Fails readUint (place p) ∨
      ∃ v, readUint.run (place p) = .ok (v + 1, supply.dry) := by
  have hui : (BitVec.ofNat 32 n).toNat = n := by
    rw [BitVec.toNat_ofNat, Nat.mod_eq_of_lt (by omega)]
  obtain ⟨b0, bytes, hw, hcount, -⟩ :=
    @writeNum_shape 6 0 (BitVec.ofNat 32 n) rfl (by decide) (by omega)
  rw [writeUint, hw] at hp hlen
  have hshort := readNumber_short (fun b0 => (b0 >>> 6).toNat)
    (fun b0 => (b0 &&& 0x3f).setWidth 32) (fun _ v => v.toNat) hcount (by decide) hp hlen
  split at hshort
  next h =>
    obtain ⟨v', hrun⟩ := hshort
    have hpos : ((v' <<< 8) ||| (0xff : Byte).setWidth 32).toNat ≠ 0 := by
      rw [shiftLeft_or_byte (by decide), BitVec.toNat_ofNat]
      have : (0xff : Byte).toNat = 255 := rfl
      omega
    obtain ⟨v, hv⟩ := Nat.exists_eq_succ_of_ne_zero hpos
    exact .inr ⟨v, hrun.trans (by rw [hv])⟩
  next h => exact .inl hshort

/-- A sequence ends in its last element; the length of an empty one is noticed, since a made-up
length is not zero. -/
theorem reads_readSeq {α ι : Type} {read : Reader α} {enc : ι → List Byte} {last : ι → Bool}
    {xs : List ι} (hlen : xs.length < 2 ^ 30)
    (hdry : 0 < N → supply.Fails read supply.dry)
    (h : ∀ x ∈ xs, supply.Reads N read (enc x) (last x)) :
    supply.Reads N (readSeq read) (writeUint xs.length ++ xs.flatMap enc)
      (Reads.lastOf last xs) := by
  refine Reads.bind_of (fun _ => decodes_readUint hlen) (fun p hp hplen hlt => ?_)
    (Reads.times hdry h) (by omega)
  exact (readUint_short hlen hp hplen).imp id fun ⟨v, hrun⟩ =>
    ⟨v + 1, hrun, (hdry (by omega)).bind⟩

/-- A string ends in its last byte, which is taken as it comes. -/
theorem reads_readString {s : List Byte} (h : s.length < 2 ^ 30) :
    supply.Reads N readString (writeString s) (Reads.lastOf (fun _ => true) s) := by
  have hr : supply.Reads N (readSeq getb) (writeUint s.length ++ s.flatMap fun b => [b])
      (Reads.lastOf (fun _ => true) s) :=
    reads_readSeq h (fun _ => fails_getb) fun b _ => reads_getb b
  rwa [List.flatMap_singleton'] at hr

/-! ### Integers -/

/-- The collecting loop notices the end: `0xff` has the continuation bit, so another byte is
read. -/
theorem readGroups_short {fuel : Nat} {b : Byte} (hb : b &&& 0x80 ≠ 0) {p : List Byte}
    (hp : ∀ x ∈ p, x &&& 0x80 ≠ 0) (hfuel : p.length + 2 ≤ fuel) :
    supply.Fails (readGroups fuel b) (place p) := by
  induction p generalizing fuel b with
  | nil =>
      obtain ⟨fuel, rfl⟩ : ∃ f, fuel = f + 2 := ⟨fuel - 2, by simp at hfuel; omega⟩
      have hrun : getb.run (place []) = .ok (0xff, supply.dry) := rfl
      rw [readGroups, if_pos hb]
      refine Fails.of_bind hrun (Fails.bind ?_)
      rw [readGroups, if_pos (by decide)]
      exact fails_getb.bind
  | cons x p ih =>
      obtain ⟨fuel, rfl⟩ : ∃ f, fuel = f + 1 := ⟨fuel - 1, by simp at hfuel; omega⟩
      have hrun : getb.run (place (x :: p)) = .ok (x, place p) := rfl
      rw [readGroups, if_pos hb]
      exact Fails.of_bind hrun (ih (hp x List.mem_cons_self)
        (fun y hy => hp y (List.mem_cons_of_mem x hy)) (by simpa using hfuel)).bind

/-- All bytes but the last have the continuation bit, and so have all bytes of a proper prefix. -/
theorem continued_short {gs : List Nat} (hgs : ∀ g ∈ gs, g < 128) {p : List Byte}
    (hp : p <+: continued gs) (hlen : p.length < (continued gs).length) :
    ∀ x ∈ p, x &&& 0x80 ≠ 0 := by
  induction gs generalizing p with
  | nil => exact absurd hlen (Nat.not_lt_zero _)
  | cons g gs ih =>
      cases p with
      | nil => exact nofun
      | cons x p =>
          rw [continued] at hp hlen
          obtain ⟨rfl, htl⟩ := List.cons_prefix_cons.mp hp
          have hplen : p.length < (continued gs).length := by simpa using hlen
          have hne : gs.isEmpty = false := by
            cases gs with
            | nil => exact absurd hplen (Nat.not_lt_zero _)
            | cons g' gs => rfl
          intro y hy
          cases List.mem_cons.mp hy with
          | inl hy =>
              have hg := hgs g List.mem_cons_self
              rw [hy, hne, and_ne_zero_iff 7 rfl]
              simp only [Bool.false_eq_true, if_false, BitVec.toNat_ofNat]
              omega
          | inr hy => exact ih (fun g' h' => hgs g' (List.mem_cons_of_mem g h')) htl hplen y hy

/-- An integer reports its missing bytes, also the last one. -/
theorem reads_readInteger (i : Int) : supply.Reads N readInteger (integerBytes i) false where
  nonempty := ⟨Integer.ofInt i⟩
  ne_nil := nofun
  decodes _ := ⟨_, decodes_readInteger i⟩
  cut p hp hlen _ := by
    obtain ⟨g, gs, heq, hg, hgs, -, -⟩ := integerGroups_spec i.natAbs
    have hbytes : integerBytes i = continued ((if i < 0 then 0x40 + g else g) :: gs) := by
      rw [integerBytes, heq]
    rw [hbytes] at hp hlen
    have hcont := continued_short (by
      intro x hx
      cases List.mem_cons.mp hx with
      | inl hx => rw [hx]; split <;> omega
      | inr hx => exact hgs x hx) hp hlen
    rw [if_neg fun hc => Bool.false_ne_true hc.1]
    cases p with
    | nil =>
        have hrun : getb.run (place []) = .ok (0xff, supply.dry) := rfl
        refine Fails.of_bind hrun (Fails.of_bind (a := supply.dry) rfl (Fails.bind ?_))
        rw [readGroups, if_pos (by decide)]
        exact fails_getb.bind
    | cons b p =>
        have hrun : getb.run (place (b :: p)) = .ok (b, place p) := rfl
        refine Fails.of_bind hrun (Fails.of_bind (a := place p) rfl (Fails.bind ?_))
        exact readGroups_short (hcont b List.mem_cons_self)
          (fun x hx => hcont x (List.mem_cons_of_mem b hx)) (Nat.le_refl _)

end SmlnjCfg.Asdl
