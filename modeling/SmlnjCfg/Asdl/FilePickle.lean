import SmlnjCfg.Asdl.Integer

/-!
# `SmlnjCfg.Asdl.FilePickle`: the SML side of the basic encodings

The picklers of the compiler front end are written over the
`ASDLFilePickle` structure of asdl-lib, which is not part of this source
tree. `ASDLFilePickle` takes its writers as parameters;
`ASDLFilePickle.Documented` is what the picklers rely on. The theorems say
that each basic value is read back by the C++ runtime:

* `Documented.decodes_readInt`, `Documented.decodes_readUint`,
  `Documented.decodes_readString`, `Documented.decodes_readBool`,
  `Documented.decodes_readTag8`, `Documented.decodes_readInteger`.
* `Documented.decodes_readSeq`: the `writeSeq` of the generated picklers.
-/

set_option autoImplicit false

namespace SmlnjCfg.Asdl

/-- The writers of the SML structure `ASDLFilePickle`: the bytes each one
outputs. SML's `int` and `word` are integers here, and a string is its
bytes. -/
structure ASDLFilePickle where
  /-- `writeInt`. -/
  writeInt : Int → List Byte
  /-- `writeUInt`. -/
  writeUInt : Nat → List Byte
  /-- `writeString`. -/
  writeString : List Byte → List Byte
  /-- `writeBool`. -/
  writeBool : Bool → List Byte
  /-- `writeTag8`. -/
  writeTag8 : Nat → List Byte
  /-- `writeInteger`. -/
  writeInteger : Int → List Byte

namespace ASDLFilePickle

/-- The documented encodings: those of the C++ writers on the ranges the C++
writers accept, and the documented encoding of integers. -/
structure Documented (P : ASDLFilePickle) : Prop where
  writeInt : ∀ i : Int, -2 ^ 29 ≤ i → i < 2 ^ 29 → P.writeInt i = Asdl.writeInt i
  writeUInt : ∀ n, n < 2 ^ 30 → P.writeUInt n = Asdl.writeUint n
  writeString : ∀ s, s.length < 2 ^ 30 → P.writeString s = Asdl.writeString s
  writeBool : ∀ b, P.writeBool b = Asdl.writeBool b
  writeTag8 : ∀ n, n < 256 → P.writeTag8 n = Asdl.writeTag8 n
  writeInteger : ∀ i, P.writeInteger i = integerBytes i

/-- The structure that writes what the C++ runtime writes. -/
def likeCpp : ASDLFilePickle :=
  { writeInt := Asdl.writeInt, writeUInt := Asdl.writeUint, writeString := Asdl.writeString,
    writeBool := Asdl.writeBool, writeTag8 := Asdl.writeTag8, writeInteger := integerBytes }

theorem documented_likeCpp : likeCpp.Documented :=
  ⟨fun _ _ _ => rfl, fun _ _ => rfl, fun _ _ => rfl, fun _ => rfl, fun _ _ => rfl,
    fun _ => rfl⟩

/-- `writeSeq`: the length and the elements. -/
def writeSeq (P : ASDLFilePickle) {α : Type} (wrFn : α → List Byte) (xs : List α) :
    List Byte :=
  P.writeUInt xs.length ++ xs.flatMap wrFn

/-- `writeOption`: a tag and the value, if any. -/
def writeOption (P : ASDLFilePickle) {α : Type} (wrFn : α → List Byte) : Option α → List Byte
  | none => P.writeTag8 0
  | some x => P.writeTag8 1 ++ wrFn x

namespace Documented

variable {P : ASDLFilePickle} (hP : P.Documented)
include hP

theorem decodes_readInt {i : Int} (hlo : -2 ^ 29 ≤ i) (hhi : i < 2 ^ 29) :
    Decodes place readInt (P.writeInt i) i := by
  rw [hP.writeInt i hlo hhi]
  exact Asdl.decodes_readInt hlo hhi

theorem decodes_readUint {n : Nat} (h : n < 2 ^ 30) :
    Decodes place readUint (P.writeUInt n) n := by
  rw [hP.writeUInt n h]
  exact Asdl.decodes_readUint h

theorem decodes_readString {s : List Byte} (h : s.length < 2 ^ 30) :
    Decodes place readString (P.writeString s) s := by
  rw [hP.writeString s h]
  exact Asdl.decodes_readString h

theorem decodes_readBool (b : Bool) : Decodes place readBool (P.writeBool b) b := by
  rw [hP.writeBool b]
  exact Asdl.decodes_readBool b

theorem decodes_readTag8 {n : Nat} (h : n < 256) :
    Decodes place readTag8 (P.writeTag8 n) n := by
  rw [hP.writeTag8 n h]
  exact Asdl.decodes_readTag8 h

theorem decodes_readInteger (i : Int) :
    Decodes place readInteger (P.writeInteger i) (Integer.ofInt i) := by
  rw [hP.writeInteger i]
  exact Asdl.decodes_readInteger i

/-- A written sequence is read back when each element is. -/
theorem decodes_readSeq {α β : Type} {read : Reader β} {wrFn : α → List Byte} {val : α → β}
    {xs : List α} (hlen : xs.length < 2 ^ 30)
    (h : ∀ x ∈ xs, Decodes place read (wrFn x) (val x)) :
    Decodes place (readSeq read) (P.writeSeq wrFn xs) (xs.map val) := by
  rw [writeSeq, hP.writeUInt _ hlen]
  exact Asdl.decodes_readSeq hlen h

end Documented

end ASDLFilePickle

end SmlnjCfg.Asdl
