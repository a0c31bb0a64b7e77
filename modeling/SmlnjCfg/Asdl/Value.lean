import SmlnjCfg.Asdl.Stream

/-!
# `SmlnjCfg.Asdl.Value`: runs of basic values

A pickle is a concatenation of the encodings of basic values. `BasicValue` is a
value of one of the variable-length kinds, and `Datum` one in the range its
writer accepts. The theorem `decodes_data` says that any run of data is read
back in order, whatever follows it, and that the encodings of one kind are
prefix-free.
-/

set_option autoImplicit false

namespace SmlnjCfg.Asdl

/-- The kinds of variable-length values. -/
inductive BasicKind where
  | int
  | uint
  | string
  deriving DecidableEq

/-- A value of a variable-length kind. -/
inductive BasicValue where
  | int (i : Int)
  | uint (ui : Nat)
  | string (s : List Byte)
  deriving DecidableEq

namespace BasicValue

/-- The kind of a value. -/
def kind : BasicValue → BasicKind
  | int _ => .int
  | uint _ => .uint
  | string _ => .string

/-- The ranges that `write_int` and `write_uint` assert; a string's length is
written by `write_uint`. -/
def InRange : BasicValue → Prop
  | int i => -2 ^ 29 ≤ i ∧ i < 2 ^ 29
  | uint ui => ui < 2 ^ 30
  | string s => s.length < 2 ^ 30

/-- `write_int`, `write_uint` and `write_string`. -/
def write : BasicValue → List Byte
  | int i => writeInt i
  | uint ui => writeUint ui
  | string s => writeString s

end BasicValue

/-- `read_int`, `read_uint` and `read_string`. -/
def BasicKind.read : BasicKind → Reader BasicValue
  | int => do
      let i ← readInt
      pure (.int i)
  | uint => do
      let ui ← readUint
      pure (.uint ui)
  | string => do
      let s ← readString
      pure (.string s)

/-- A value that its writer accepts. -/
structure Datum where
  /-- The value. -/
  value : BasicValue
  inRange : value.InRange

/-- Data are equal when their values are. -/
theorem Datum.eq_of_value : ∀ {d e : Datum}, d.value = e.value → d = e
  | ⟨_, _⟩, ⟨_, _⟩, rfl => rfl

/-- The good stream in front of some bytes determines the bytes. -/
theorem place_injective : Function.Injective place := by
  intro bytes bytes' h
  exact congrArg Instream.bytes h

/-- A datum is read back by the reader of its kind. -/
theorem Datum.decodes (d : Datum) : Decodes place d.value.kind.read d.value.write d.value := by
  obtain ⟨v, hv⟩ := d
  cases v with
  | int i => exact (decodes_readInt hv.1 hv.2).bind_pure
  | uint ui => exact (decodes_readUint hv).bind_pure
  | string s => exact (decodes_readString hv).bind_pure

/-- A run of data written one after the other is read back in order, in front
of any bytes. Two data of one kind whose encodings start the same bytes are
the same, so no encoding is a part of another. -/
theorem decodes_data (ds : List Datum) :
    Decodes place (Decoder.sequence (ds.map fun d => d.value.kind.read))
        (ds.flatMap fun d => d.value.write) (ds.map Datum.value) ∧
      (∀ d ∈ ds, Decodes place d.value.kind.read d.value.write d.value) ∧
      ∀ d ∈ ds, ∀ e : Datum, d.value.kind = e.value.kind → ∀ tl vl : List Byte,
        d.value.write ++ tl = e.value.write ++ vl → d = e ∧ tl = vl := by
  refine ⟨Decodes.sequence fun d _ => d.decodes, fun d _ => d.decodes, ?_⟩
  intro d _ e hkind tl vl hbytes
  have he : Decodes place d.value.kind.read e.value.write e.value := by
    rw [hkind]
    exact e.decodes
  obtain ⟨hval, htl⟩ := d.decodes.split place_injective he hbytes
  exact ⟨Datum.eq_of_value hval, htl⟩

/-- The ends of the length classes, and a string with a zero byte in it. -/
example : [BasicValue.int (-0x20), .int 0x20, .uint 0x3f, .uint 0x40, .string [0, 0xff]].map
    BasicValue.write = [[0x3f], [0x40, 0x20], [0x3f], [0x40, 0x40], [2, 0, 0xff]] := by decide

end SmlnjCfg.Asdl
