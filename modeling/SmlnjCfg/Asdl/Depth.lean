import SmlnjCfg.Asdl.Integer
import SmlnjCfg.LambdaVar
import SmlnjCfg.Lib.Format

/-!
# `SmlnjCfg.Asdl.Depth`: the readers of the basic types use no fuel up

Every read of a byte leaves fewer reads: one for each byte of the input, and
one more that notices the end. No reader of a basic type gives reads back, and
the loop over the groups of an integer has a fuel above their number.
-/

set_option autoImplicit false

namespace SmlnjCfg

namespace Asdl

/-- The number of reads of a byte that return: one for each byte that is left, and the one past
the last byte, which returns the end-of-file value and clears the flag. The next one after it
stops. -/
def Instream.reads (is : Instream) : Nat := if is.good then is.bytes.length + 1 else 0

variable {n : Nat}

/-- A read that returns is one read less. The case with no bytes left is the one that clears the
flag: one read was left, and then there is none. -/
theorem consumes_getb : getb.Consumes Instream.reads := by
  rintro ⟨bytes, good⟩ b is' h
  cases good with
  | false => cases h
  | true =>
      cases bytes with
      | nil =>
          cases h
          exact Nat.zero_lt_one
      | cons c bytes =>
          cases h
          show bytes.length + 1 < bytes.length + 1 + 1
          omega

/-- A read does not recurse, so the fuel does not matter to it. -/
theorem shallow_getb : getb.Shallow Instream.reads .outOfFuel n := by
  intro is his
  constructor
  · intro h
    rw [StateT.run, getb] at h
    split at h
    · split at h <;> cases h
    · cases h
  · intro b is' h
    exact Nat.le_of_lt (consumes_getb is b is' h)

/-- A tag is a byte. -/
theorem consumes_readTag8 : readTag8.Consumes Instream.reads := by
  have hrest : ∀ b : Byte, ∀ n,
      (pure b.toNat : Reader Nat).Shallow Instream.reads .outOfFuel n := fun _ _ => .pure _
  exact consumes_getb.bind hrest

/-- Neither does a tag. -/
theorem shallow_readTag8 : readTag8.Shallow Instream.reads .outOfFuel n :=
  shallow_getb.bind fun _ => .pure _

/-- The switch of the number readers falls through at most three or seven times, whatever the
input is, and has no fuel. -/
theorem shallow_shiftIn {w : Nat} (k : Nat) (v : BitVec w) :
    (shiftIn k v).Shallow Instream.reads .outOfFuel n := by
  induction k generalizing v with
  | zero => exact .pure v
  | succ k ih => exact shallow_getb.bind fun b => ih ((v <<< 8) ||| b.setWidth w)

/-- The count in the first byte bounds the reads of `read_uint`. -/
theorem shallow_readUint : readUint.Shallow Instream.reads .outOfFuel n :=
  shallow_getb.bind fun _ => (shallow_shiftIn _ _).bind fun _ => .pure _

/-- The same count bounds those of `read_int`. -/
theorem shallow_readInt : readInt.Shallow Instream.reads .outOfFuel n :=
  shallow_getb.bind fun _ => (shallow_shiftIn _ _).bind fun _ => .pure _

/-- A variable is a number with a three-bit count. -/
theorem shallow_readLvar : LambdaVar.readLvar.Shallow Instream.reads .outOfFuel n :=
  shallow_getb.bind fun _ => (shallow_shiftIn _ _).bind fun _ => .pure _

/-- An invalid tag stops the reader with its own error, which is not that of missing fuel. -/
theorem shallow_invalidTag {α : Type} (tag : Nat) (tyName : String) :
    (invalidTag tag tyName : Reader α).Shallow Instream.reads .outOfFuel n :=
  .throw nofun

/-- A boolean is a tag, or it is rejected. -/
theorem shallow_readBool : readBool.Shallow Instream.reads .outOfFuel n := by
  refine shallow_readTag8.bind fun tag => ?_
  match tag with
  | 0 => exact shallow_invalidTag _ _
  | 1 => exact .pure false
  | 2 => exact .pure true
  | tag + 3 => exact shallow_invalidTag _ _

/-- A string reads as many bytes as its length says. On a short input it stops with the error of
the stream, after one read more than there are bytes. -/
theorem shallow_readString : readString.Shallow Instream.reads .outOfFuel n :=
  shallow_readUint.bind fun len => shallow_getb.times len

/-- A string reads its length at least, so it is never free. -/
theorem consumes_readString : readString.Consumes Instream.reads := by
  have hrest : ∀ b : Byte, ∀ n, (do
      let v ← shiftIn (b >>> 6).toNat ((b &&& 0x3f).setWidth 32)
      getb.times v.toNat : Reader (List Byte)).Shallow Instream.reads .outOfFuel n :=
    fun b n => (shallow_shiftIn _ _).bind fun v => shallow_getb.times _
  have h := consumes_getb.bind hrest
  intro is s is' hrun
  refine h is s is' ?_
  rw [← hrun]
  simp [readString, readUint]

/-- The loop over the groups reads a byte in every round. The fuel of the loop is the number of
reads that are left, so it stops at a read before it is used up. -/
theorem shallow_readGroups (fuel : Nat) (b : Byte) :
    (readGroups fuel b).Shallow Instream.reads .outOfFuel fuel := by
  induction fuel generalizing b with
  | zero =>
      intro is his
      omega
  | succ fuel ih =>
      rw [readGroups]
      split
      · exact consumes_getb.bind_shallow shallow_getb fun c => (ih c).bind fun _ => .pure _
      · exact .pure []

/-- An integer starts its loop with more fuel than there are reads left after the first byte. -/
theorem shallow_readInteger : readInteger.Shallow Instream.reads .outOfFuel n := by
  refine shallow_getb.bind fun b => ?_
  intro is his
  have hlt : is.reads < is.bytes.length + 2 := by
    rw [Instream.reads]
    split <;> omega
  have hread : (do
      let groups ← readGroups (is.bytes.length + 2) b
      pure ⟨b &&& 0x40 ≠ 0, packDigits (b &&& 0x3f) groups⟩ : Reader Integer).Shallow
        Instream.reads .outOfFuel (is.bytes.length + 2) :=
    (shallow_readGroups (is.bytes.length + 2) b).bind fun _ => .pure _
  exact hread is hlt

/-- An optional integer is a marker and then an integer. -/
theorem shallow_readIntegerOption :
    readIntegerOption.Shallow Instream.reads .outOfFuel n := by
  refine shallow_readTag8.bind fun tag => ?_
  match tag with
  | 0 => exact .pure none
  | 1 => exact shallow_readInteger.bind fun v => .pure (some v)
  | tag + 2 => exact shallow_invalidTag _ _

end Asdl

end SmlnjCfg
