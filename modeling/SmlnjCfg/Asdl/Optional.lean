import SmlnjCfg.Asdl.Value
import SmlnjCfg.Asdl.Truncation

/-!
# `SmlnjCfg.Asdl.Optional`: tags and optional values

The writers and readers of `asdl.hpp` for tags and options, as they stand in
the header: each pair chooses its own presence marker, and not every reader
expects the marker that its writer leaves. The theorems:

* `decodes_iff_matched`: which values are read back.
* `bytes_eq_clear_iff`: which present values are written like an absent
  one.
-/

set_option autoImplicit false

namespace SmlnjCfg.Asdl

/-! ### The writers -/

/-- `write_tag`, which biases the tag by one. -/
def writeTag (ui : Nat) : List Byte := writeUint (ui + 1)

/-- `integer::write`, the body of which is still to be written. -/
def writeInteger (_ : Integer) : List Byte := []

/-- `write_tag0_option`. -/
def writeTag0Option : Option Unit → List Byte
  | some () => writeTag8 1
  | none => writeTag8 0

/-- `write_tag8_option`. -/
def writeTag8Option : Option Nat → List Byte
  | some ui => writeTag8 ui
  | none => writeTag8 0

/-- `write_tag_option`. -/
def writeTagOption : Option Nat → List Byte
  | some ui => writeTag ui
  | none => writeTag 0

/-- `write_int_option`. -/
def writeIntOption : Option Int → List Byte
  | some i => writeTag8 1 ++ writeInt i
  | none => writeTag8 0

/-- `write_uint_option`. -/
def writeUintOption : Option Nat → List Byte
  | some ui => writeTag8 1 ++ writeUint ui
  | none => writeTag8 0

/-- `write_bool_option`. -/
def writeBoolOption : Option Bool → List Byte
  | some b => writeBool b
  | none => writeTag8 0

/-- `write_integer_option`: no marker precedes the integer. -/
def writeIntegerOption : Option Integer → List Byte
  | some n => writeInteger n
  | none => writeTag8 0

/-- `write_string_option`: no marker precedes the string. -/
def writeStringOption : Option (List Byte) → List Byte
  | some s => writeString s
  | none => writeTag8 0

/-- `write_small_enum_option`, on the constructor's number. -/
def writeSmallEnumOption : Option Nat → List Byte
  | some con => writeTag8 con
  | none => writeTag8 0

/-- `write_big_enum_option`, on the constructor's number. -/
def writeBigEnumOption : Option Nat → List Byte
  | some con => writeUint con
  | none => writeUint 0

/-- `write_option`, for boxed values written by `write`. -/
def writeOption {T : Type} (write : T → List Byte) : Option T → List Byte
  | some v => writeTag8 1 ++ write v
  | none => writeTag8 0

/-! ### The readers -/

/-- `read_tag`, which takes no bias off. -/
def readTag : Reader Nat := readUint

/-- The body that `read_tag0_option`, `read_tag8_option`, `read_tag_option` and
the enumeration readers share: zero stands for an absent value. -/
def optionOf {T : Type} (f : Nat → T) (v : Nat) : Reader (Option T) :=
  if v = 0 then pure none else pure (some (f v))

/-- `read_tag0_option`. -/
def readTag0Option : Reader (Option Unit) := do
  let v ← readTag8
  optionOf (fun _ => ()) v

/-- `read_tag8_option`. -/
def readTag8Option : Reader (Option Nat) := do
  let v ← readTag8
  optionOf id v

/-- `read_tag_option`: it reads one byte, not a tag. -/
def readTagOption : Reader (Option Nat) := do
  let v ← readTag8
  optionOf id v

/-- `read_int_option`. -/
def readIntOption : Reader (Option Int) := readMarked readInt "int?"

/-- `read_uint_option`. -/
def readUintOption : Reader (Option Nat) := readMarked readUint "uint?"

/-- `read_bool_option`. -/
def readBoolOption : Reader (Option Bool) := do
  let v ← readTag8
  match v with
  | 0 => pure none
  | 1 => pure (some false)
  | 2 => pure (some true)
  | v => invalidTag v "bool?"

/-- `read_string_option`. -/
def readStringOption : Reader (Option (List Byte)) := readMarked readString "string?"

/-- `read_small_enum_option`. -/
def readSmallEnumOption : Reader (Option Nat) := do
  let tag ← readTag8
  optionOf id tag

/-- `read_big_enum_option`. -/
def readBigEnumOption : Reader (Option Nat) := do
  let tag ← readUint
  optionOf id tag

/-- `read_option`, for boxed values read by `read`. -/
def readOption {T : Type} (read : Reader T) : Reader (Option T) := readMarked read "option"

/-! ### The pairs -/

/-- A writer together with the value it is given: one case for each pair of the
header, with the values the pair is meant for. `T` is a type of boxed values. -/
inductive Written (T : Type) where
  | tag (ui : Nat) (h : ui < 2 ^ 30 - 1)
  | tag0Option (o : Option Unit)
  | tag8Option (o : Option Nat) (h : ∀ ui ∈ o, 1 ≤ ui ∧ ui < 256)
  | tagOption (o : Option Nat) (h : ∀ ui ∈ o, ui < 2 ^ 30 - 1)
  | intOption (o : Option Int) (h : ∀ i ∈ o, -2 ^ 29 ≤ i ∧ i < 2 ^ 29)
  | uintOption (o : Option Nat) (h : ∀ ui ∈ o, ui < 2 ^ 30)
  | boolOption (o : Option Bool)
  | integerOption (o : Option Integer)
  | stringOption (o : Option (List Byte)) (h : ∀ s ∈ o, s.length < 2 ^ 30)
  | smallEnumOption (o : Option Nat) (h : ∀ con ∈ o, 1 ≤ con ∧ con < 256)
  | bigEnumOption (o : Option Nat) (h : ∀ con ∈ o, 1 ≤ con ∧ con < 2 ^ 30)
  | option (o : Option T)

namespace Written

variable {T : Type}

/-- The bytes that the value's writer outputs. -/
def bytes (write : T → List Byte) : Written T → List Byte
  | tag ui _ => writeTag ui
  | tag0Option o => writeTag0Option o
  | tag8Option o _ => writeTag8Option o
  | tagOption o _ => writeTagOption o
  | intOption o _ => writeIntOption o
  | uintOption o _ => writeUintOption o
  | boolOption o => writeBoolOption o
  | integerOption o => writeIntegerOption o
  | stringOption o _ => writeStringOption o
  | smallEnumOption o _ => writeSmallEnumOption o
  | bigEnumOption o _ => writeBigEnumOption o
  | option o => writeOption write o

/-- The matching reader reads the value back from what was written, in front of
any bytes. -/
def ReadBack (write : T → List Byte) (read : Reader T) (v : Written T) : Prop :=
  match v with
  | tag ui _ => Decodes place readTag (v.bytes write) ui
  | tag0Option o => Decodes place readTag0Option (v.bytes write) o
  | tag8Option o _ => Decodes place readTag8Option (v.bytes write) o
  | tagOption o _ => Decodes place readTagOption (v.bytes write) o
  | intOption o _ => Decodes place readIntOption (v.bytes write) o
  | uintOption o _ => Decodes place readUintOption (v.bytes write) o
  | boolOption o => Decodes place readBoolOption (v.bytes write) o
  | integerOption o => Decodes place readIntegerOption (v.bytes write) o
  | stringOption o _ => Decodes place readStringOption (v.bytes write) o
  | smallEnumOption o _ => Decodes place readSmallEnumOption (v.bytes write) o
  | bigEnumOption o _ => Decodes place readBigEnumOption (v.bytes write) o
  | option o => Decodes place (readOption read) (v.bytes write) o

/-- The values whose writer leaves what the reader looks for: no tag and no
optional tag, and neither a present string nor a present integer. -/
def Matched : Written T → Prop
  | tag _ _ => False
  | tagOption _ _ => False
  | integerOption o => o = none
  | stringOption o _ => o = none
  | _ => True

end Written

/-! ### Marked and unmarked options -/

/-- An option that is zero or a tag is read back. -/
theorem decodes_optionOf {ui : Nat} (h1 : 1 ≤ ui) (h : ui < 256) :
    Decodes place (readTag8 >>= optionOf id) (writeTag8 ui) (some ui) := by
  refine (decodes_readTag8 h).cons ?_
  rw [optionOf, if_neg (by omega)]
  exact Decodes.pure _

/-- A zero byte is an absent value. -/
theorem decodes_optionOf_none {T : Type} (f : Nat → T) :
    Decodes place (readTag8 >>= optionOf f) (writeTag8 0) none :=
  (decodes_readTag8 (by decide)).cons (Decodes.pure none)

/-- A marker and a value that is read back are read back. -/
theorem decodes_readMarked {T : Type} {read : Reader T} {bytes : List Byte} {v : T}
    (tyName : String) (h : Decodes place read bytes v) :
    Decodes place (readMarked read tyName) (writeTag8 1 ++ bytes) (some v) :=
  (decodes_readTag8 (by decide)).bind h.bind_pure

/-- The marker of an absent value is read back. -/
theorem decodes_readMarked_none {T : Type} (read : Reader T) (tyName : String) :
    Decodes place (readMarked read tyName) (writeTag8 0) none :=
  (decodes_readTag8 (by decide)).cons (Decodes.pure none)

/-! ### The pairs that do not match -/

/-- Reading a tag gives the biased tag. -/
theorem not_decodes_readTag {ui : Nat} (h : ui < 2 ^ 30 - 1) :
    ¬ Decodes place readTag (writeTag ui) ui := by
  intro hd
  have hbias : Decodes place readTag (writeTag ui) (ui + 1) := decodes_readUint (by omega)
  have := hd.unique hbias
  omega

/-- A short number is its own byte, and a longer one has further bytes. -/
theorem writeUint_cases {n : Nat} (h : n < 2 ^ 30) :
    (∃ b : Byte, writeUint n = [b] ∧ b.toNat = n ∧ n < 64) ∨
      ∃ (b c : Byte) (bytes : List Byte), writeUint n = b :: c :: bytes ∧ 64 ≤ b.toNat ∧
        64 ≤ n := by
  have hui : (BitVec.ofNat 32 n).toNat = n := by
    rw [BitVec.toNat_ofNat, Nat.mod_eq_of_lt (by omega)]
  obtain ⟨b, bytes, acc, hw, hlen, hmod, hacc, hval⟩ :=
    @writeNum_eq 6 0 (BitVec.ofNat 32 n) rfl (by decide) (by omega)
  rw [hui] at hval
  have hz : BitVec.toNat (0 : BitVec 32) = 0 := rfl
  cases bytes with
  | nil =>
      rw [List.length_nil] at hlen
      have hacc' : acc = n := hval
      exact .inl ⟨b, hw, by omega, by omega⟩
  | cons c bytes =>
      rw [List.length_cons] at hlen
      refine .inr ⟨b, c, bytes, hw, by omega, ?_⟩
      -- A number below 64 would have been written in one byte.
      by_contra hn
      have hone : writeUint n = [(0 ||| BitVec.ofNat 32 n).setWidth 8] := by
        rw [writeUint, writeNum, if_pos (by rw [hui]; omega)]
      rw [writeUint, hw] at hone
      simp at hone

/-- Reading one byte of an optional tag. -/
theorem run_readTagOption (b : Byte) (bytes : List Byte) :
    readTagOption.run (place (b :: bytes))
      = .ok (if b.toNat = 0 then none else some b.toNat, place bytes) := by
  show (optionOf id b.toNat).run (place bytes) = _
  rw [optionOf]
  split
  · rfl
  · rfl

/-- No optional tag is read back: an absent one is read as the tag one, a short
tag one too high, and of a longer one only the first byte is read. -/
theorem not_decodes_readTagOption {o : Option Nat} (h : ∀ ui ∈ o, ui < 2 ^ 30 - 1) :
    ¬ Decodes place readTagOption (writeTagOption o) o := by
  intro hd
  have hrun := hd []
  rw [List.append_nil] at hrun
  cases o with
  | none =>
      have hnone : writeTagOption none = [1#8] := by decide
      rw [hnone, run_readTagOption] at hrun
      simp at hrun
  | some ui =>
      have hui := h ui rfl
      rw [show writeTagOption (some ui) = writeUint (ui + 1) from rfl] at hrun
      rcases writeUint_cases (n := ui + 1) (by omega) with
        ⟨b, hw, hb, -⟩ | ⟨b, c, bytes, hw, -, -⟩
      · rw [hw, run_readTagOption, if_neg (by omega)] at hrun
        simp at hrun
        omega
      · rw [hw, run_readTagOption] at hrun
        simp [place] at hrun

/-- Bytes read from a dry stream leave it dry. -/
theorem times_getb_dry {n : Nat} {s : List Byte} {is : Instream}
    (h : (getb.times n).run supply.dry = .ok (s, is)) : is = supply.dry := by
  cases n with
  | zero =>
      have hnil : (getb.times 0).run supply.dry = .ok ([], supply.dry) := rfl
      rw [hnil] at h
      cases h
      rfl
  | succ n =>
      have hfails : supply.Fails (getb.times (n + 1)) supply.dry := fails_getb.bind
      obtain ⟨e, -, he⟩ := hfails
      exact absurd (he.symm.trans h) (by simp)

/-- A string that ends with the input has no more bytes than are there. -/
theorem times_getb_place_nil {n : Nat} {s : List Byte}
    (h : (getb.times n).run (place []) = .ok (s, place [])) : s = [] := by
  cases n with
  | zero =>
      cases h
      rfl
  | succ n =>
      -- The first byte is made up, and the stream stays dry after it.
      have hget : getb.run (place []) = .ok (0xff, supply.dry) := rfl
      rw [Decoder.times, StateT.run_bind, hget] at h
      cases hn : (getb.times n).run supply.dry with
      | error e =>
          have herr : (getb.times n >>= fun as => pure ((0xff : Byte) :: as)).run supply.dry
              = .error e := by
            rw [StateT.run_bind, hn]
            rfl
          exact absurd (herr.symm.trans h) (by simp)
      | ok r =>
          have hok : (getb.times n >>= fun as => pure ((0xff : Byte) :: as)).run supply.dry
              = .ok (0xff :: r.1, r.2) := by
            rw [StateT.run_bind, hn]
            rfl
          have hdry : r.2 = supply.dry := times_getb_dry (s := r.1) hn
          have hend := hok.symm.trans h
          rw [hdry] at hend
          simp [supply, place] at hend

/-- A single byte is not a string of length one. -/
theorem run_readString_singleton (b : Byte) :
    readString.run (place [b]) ≠ .ok ([b], place []) := by
  intro h
  have hget : getb.run (place [b]) = .ok (b, place []) := rfl
  have huint : readUint.run (place [b])
      = (shiftIn (b >>> 6).toNat ((b &&& 0x3f).setWidth 32) >>= fun v =>
          pure v.toNat).run (place []) := by
    rw [readUint, StateT.run_bind, hget]
    rfl
  rw [readString, StateT.run_bind, huint, StateT.run_bind] at h
  generalize (b >>> 6).toNat = k at h
  cases k with
  | zero =>
      -- The length is in the byte itself, so nothing is left for the string.
      have hs := times_getb_place_nil h
      cases hs
  | succ k =>
      have hshort := shiftIn_short (p := []) (Nat.succ_pos k) ((b &&& 0x3f).setWidth 32)
      split at hshort
      next =>
        obtain ⟨v', hv'⟩ := hshort
        rw [hv'] at h
        have hdry := times_getb_dry h
        cases hdry
      next =>
        rw [hshort] at h
        cases h

/-- Reading the marker of an optional string. -/
theorem run_readStringOption (b : Byte) (bytes : List Byte) :
    readStringOption.run (place (b :: bytes)) =
      match b.toNat with
      | 0 => .ok (none, place bytes)
      | 1 => (readString >>= fun s => pure (some s)).run (place bytes)
      | tag => .error (.invalidTag tag "string?") := by
  show ((match b.toNat with
    | 0 => pure none
    | 1 => readString >>= fun s => pure (some s)
    | tag => invalidTag tag "string?" : Reader (Option (List Byte)))).run (place bytes) = _
  split <;> rfl

/-- A string that is present is not read back: its length is taken for the
marker. -/
theorem not_decodes_readStringOption {s : List Byte} (h : s.length < 2 ^ 30) :
    ¬ Decodes place readStringOption (writeStringOption (some s)) (some s) := by
  intro hd
  have hrun := hd []
  rw [List.append_nil, show writeStringOption (some s) = writeUint s.length ++ s from rfl] at hrun
  rcases writeUint_cases h with ⟨b, hw, hb, -⟩ | ⟨b, c, bytes, hw, hb, -⟩
  · rw [hw, List.singleton_append, run_readStringOption] at hrun
    match s, hb with
    | [], hb =>
        rw [show b.toNat = 0 from hb] at hrun
        simp at hrun
    | [x], hb =>
        rw [show b.toNat = 1 from hb] at hrun
        simp only at hrun
        rw [StateT.run_bind] at hrun
        cases hr : readString.run (place [x]) with
        | error e =>
            rw [hr] at hrun
            cases hrun
        | ok r =>
            rw [hr] at hrun
            have hend : (some r.1, r.2) = (some [x], place []) := Except.ok.inj hrun
            simp only [Prod.mk.injEq, Option.some.injEq] at hend
            exact run_readString_singleton x (hr.trans (by rw [← hend.1, ← hend.2]))
    | x :: y :: s, hb =>
        rw [show b.toNat = s.length + 2 from hb] at hrun
        cases hrun
  · rw [hw, List.cons_append, run_readStringOption] at hrun
    obtain ⟨n, hn⟩ := Nat.exists_eq_add_of_le hb
    rw [hn, show 64 + n = (n + 62) + 2 by omega] at hrun
    cases hrun

/-- An integer that is present is not read back: nothing of it is written. -/
theorem not_decodes_readIntegerOption (n : Integer) :
    ¬ Decodes place readIntegerOption (writeIntegerOption (some n)) (some n) := by
  intro hd
  have hrun := hd []
  have herr : readIntegerOption.run (place [])
      = .error (.invalidTag 255 "integer?") := rfl
  rw [show writeIntegerOption (some n) ++ [] = [] from rfl, herr] at hrun
  cases hrun

/-! ### The exact set of values -/

variable {T : Type} {write : T → List Byte} {read : Reader T}

/-- A value is read back by the reader of its pair exactly if it is matched. -/
theorem readBack_iff_matched (hT : ∀ v, Decodes place read (write v) v) (v : Written T) :
    v.ReadBack write read ↔ v.Matched := by
  constructor
  · intro h
    cases v with
    | tag ui hui => exact not_decodes_readTag hui h
    | tagOption o ho => exact not_decodes_readTagOption ho h
    | integerOption o =>
        cases o with
        | none => rfl
        | some n => exact absurd h (not_decodes_readIntegerOption n)
    | stringOption o ho =>
        cases o with
        | none => rfl
        | some s => exact absurd h (not_decodes_readStringOption (ho s rfl))
    | _ => trivial
  · intro h
    cases v with
    | tag ui hui => exact h.elim
    | tagOption o ho => exact h.elim
    | integerOption o =>
        obtain rfl : o = none := h
        exact decodes_readMarked_none _ _
    | stringOption o ho =>
        obtain rfl : o = none := h
        exact decodes_readMarked_none _ _
    | tag0Option o =>
        cases o with
        | none => exact decodes_optionOf_none _
        | some u => exact (decodes_readTag8 (by decide)).cons (Decodes.pure (some ()))
    | tag8Option o ho =>
        cases o with
        | none => exact decodes_optionOf_none _
        | some ui => exact decodes_optionOf (ho ui rfl).1 (ho ui rfl).2
    | smallEnumOption o ho =>
        cases o with
        | none => exact decodes_optionOf_none _
        | some con => exact decodes_optionOf (ho con rfl).1 (ho con rfl).2
    | bigEnumOption o ho =>
        cases o with
        | none => exact (decodes_readUint (n := 0) (by decide)).bind (Decodes.pure none)
        | some con =>
            have hcon := ho con rfl
            have hopt : Decodes place (optionOf id con) [] (some con) := by
              rw [optionOf, if_neg (by omega)]
              exact Decodes.pure _
            have hd := (decodes_readUint hcon.2).bind hopt
            rwa [List.append_nil] at hd
    | intOption o ho =>
        cases o with
        | none => exact decodes_readMarked_none _ _
        | some i => exact decodes_readMarked _ (decodes_readInt (ho i rfl).1 (ho i rfl).2)
    | uintOption o ho =>
        cases o with
        | none => exact decodes_readMarked_none _ _
        | some ui => exact decodes_readMarked _ (decodes_readUint (ho ui rfl))
    | boolOption o =>
        cases o with
        | none => exact (decodes_readTag8 (by decide)).cons (Decodes.pure none)
        | some b =>
            cases b with
            | false => exact (decodes_readTag8 (by decide)).cons (Decodes.pure (some false))
            | true => exact (decodes_readTag8 (by decide)).cons (Decodes.pure (some true))
    | option o =>
        cases o with
        | none => exact decodes_readMarked_none _ _
        | some v => exact decodes_readMarked _ (hT v)

/-! ### Absent values -/

/-- The absent value of the same pair. -/
def Written.clear : Written T → Written T
  | tag ui h => tag ui h
  | tag0Option _ => tag0Option none
  | tag8Option _ _ => tag8Option none nofun
  | tagOption _ _ => tagOption none nofun
  | intOption _ _ => intOption none nofun
  | uintOption _ _ => uintOption none nofun
  | boolOption _ => boolOption none
  | integerOption _ => integerOption none
  | stringOption _ _ => stringOption none nofun
  | smallEnumOption _ _ => smallEnumOption none nofun
  | bigEnumOption _ _ => bigEnumOption none nofun
  | option _ => option none

/-- Unsigned numbers are written alike only if they are equal. -/
theorem writeUint_injOn {n m : Nat} (hn : n < 2 ^ 30) (hm : m < 2 ^ 30)
    (h : writeUint n = writeUint m) : n = m := by
  have hd : Decodes place readUint (writeUint n) m := by
    rw [h]
    exact decodes_readUint hm
  exact (decodes_readUint hn).unique hd

/-- A tag byte that is not zero is not the byte of an absent value. -/
theorem writeTag8_ne {ui : Nat} (h1 : 1 ≤ ui) (h : ui < 256) : writeTag8 ui ≠ writeTag8 0 := by
  intro heq
  have hd : Decodes place readTag8 (writeTag8 ui) 0 := by
    rw [heq]
    exact decodes_readTag8 (by decide)
  have := (decodes_readTag8 h).unique hd
  omega

/-- The marker of a present value is not that of an absent one. -/
theorem marked_ne (bytes : List Byte) : writeTag8 1 ++ bytes ≠ writeTag8 0 := by
  intro h
  exact absurd (List.cons.inj h).1 (by decide)

/-- The present values that are written like the absent one of their pair: the
optional tag zero and the empty string. -/
theorem bytes_eq_clear_iff (v : Written T) :
    v.bytes write = v.clear.bytes write ↔
      v = v.clear ∨ (∃ h, v = .tagOption (some 0) h) ∨ ∃ h, v = .stringOption (some []) h := by
  constructor
  · intro h
    cases v with
    | tag ui hui => exact .inl rfl
    | tag0Option o =>
        cases o with
        | none => exact .inl rfl
        | some u => exact absurd h (writeTag8_ne (by decide) (by decide))
    | tag8Option o ho =>
        cases o with
        | none => exact .inl rfl
        | some ui => exact absurd h (writeTag8_ne (ho ui rfl).1 (ho ui rfl).2)
    | smallEnumOption o ho =>
        cases o with
        | none => exact .inl rfl
        | some con => exact absurd h (writeTag8_ne (ho con rfl).1 (ho con rfl).2)
    | tagOption o ho =>
        cases o with
        | none => exact .inl rfl
        | some ui =>
            have hui := ho ui rfl
            have := writeUint_injOn (n := ui + 1) (m := 0 + 1) (by omega) (by decide) h
            obtain rfl : ui = 0 := by omega
            exact .inr (.inl ⟨ho, rfl⟩)
    | bigEnumOption o ho =>
        cases o with
        | none => exact .inl rfl
        | some con =>
            have hcon := ho con rfl
            have := writeUint_injOn (m := 0) hcon.2 (by decide) h
            omega
    | intOption o ho =>
        cases o with
        | none => exact .inl rfl
        | some i => exact absurd h (marked_ne _)
    | uintOption o ho =>
        cases o with
        | none => exact .inl rfl
        | some ui => exact absurd h (marked_ne _)
    | boolOption o =>
        cases o with
        | none => exact .inl rfl
        | some b => cases b <;> exact absurd h (writeTag8_ne (by decide) (by decide))
    | integerOption o =>
        cases o with
        | none => exact .inl rfl
        | some n => cases h
    | stringOption o ho =>
        cases o with
        | none => exact .inl rfl
        | some s =>
            have hlen := congrArg List.length h
            have hs : (writeUint s.length ++ s).length = 1 := hlen
            rw [List.length_append] at hs
            have hpos : 0 < (writeUint s.length).length := by
              rcases writeUint_cases (ho s rfl) with ⟨b, hw, -⟩ | ⟨b, c, bytes, hw, -⟩
              · rw [hw]; simp
              · rw [hw]; simp
            obtain rfl : s = [] := List.length_eq_zero_iff.mp (by omega)
            exact .inr (.inr ⟨ho, rfl⟩)
    | option o =>
        cases o with
        | none => exact .inl rfl
        | some v => exact absurd h (marked_ne _)
  · rintro (h | ⟨hui, h⟩ | ⟨hs, h⟩)
    · rw [← h]
    · rw [h]
      rfl
    · rw [h]
      rfl

/-- Which values are read back, and which present values are written like the absent one of
their pair. A pair that shares an encoding cannot round trip, but more pairs fail than these. -/
theorem decodes_iff_matched (hT : ∀ v, Decodes place read (write v) v) (v : Written T) :
    (v.ReadBack write read ↔ v.Matched) ∧
    (v.bytes write = v.clear.bytes write ↔
      v = v.clear ∨ (∃ h, v = .tagOption (some 0) h) ∨ ∃ h, v = .stringOption (some []) h) :=
  ⟨readBack_iff_matched hT v, bytes_eq_clear_iff v⟩

/-- A boxed boolean is read back, and not written like an absent one. -/
theorem decodes_iff_matched_bool :
    (Written.option (some true)).ReadBack writeBool readBool ∧
      (Written.option (some true)).bytes writeBool
        ≠ (Written.option (some true)).clear.bytes writeBool := by
  obtain ⟨hread, hclear⟩ := decodes_iff_matched decodes_readBool (.option (some true))
  refine ⟨hread.mpr trivial, fun heq => ?_⟩
  rcases hclear.mp heq with h | ⟨h, h'⟩ | ⟨h, h'⟩
  · cases h
  · cases h'
  · cases h'

/-- An absent optional tag is read as the tag one, and shares its encoding with
the tag zero. -/
theorem readTagOption_writeTagOption_none :
    ¬ (∀ v : Written Unit, v.ReadBack (fun _ => []) (pure ())) ∧
      readTagOption.run (place (writeTagOption none)) = .ok (some 1, place []) ∧
      writeTagOption none = writeTagOption (some 0) := by
  refine ⟨fun h => ?_, rfl, rfl⟩
  exact not_decodes_readTagOption (o := none) nofun (h (.tagOption none nofun))

end SmlnjCfg.Asdl
