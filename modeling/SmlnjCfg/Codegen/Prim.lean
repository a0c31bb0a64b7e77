import Mathlib.Data.Int.Bitwise
import SmlnjCfg.Codegen.Builder

/-!
# `SmlnjCfg.Codegen.Prim`: code generation for primitive operations

The `codegen` methods of the classes of `CFG_Prim`, in the order of
`cfg-prim-codegen.cpp`. All of them are straight-line but for `ARITH`, which
ends the current block with a branch to the overflow block. A `switch` over
a value that is no enumerator fails.
-/

set_option autoImplicit false

namespace SmlnjCfg

namespace Codegen

open Gen CfgPrim

/-- `numType`: whatever is not an integer is a float, an unknown kind included. -/
def numType (k : Tagged Numkind) (sz : Int) : IR.Ty :=
  if k = .con .INT then iType sz else fType sz

/-- `bitsToBytes`: the argument is converted to `unsigned`, so a negative size becomes a large
one. -/
def bitsToBytes (n : Int) : Nat := (n % 2 ^ 32).toNat / 8

/-- An argument of a primitive operation. The source indexes a vector; a missing one is a failure
here. -/
def argAt (args : List Val) (i : Nat) : Gen Val := deref args[i]? "argument index out of range"

/-- `offset`, aligned for a field of `szb` bytes. The masks are those of the source, which are
right for powers of two. -/
def alignOffset (offset szb : Int) : Int :=
  if Int.land offset (szb - 1) ≠ 0 then
    Int.land (offset + (szb - 1)) (Int.lnot (szb - 1))
  else offset

/-- The final offset, aligned to the native word size. -/
def roundToWord (offset : Int) : Int :=
  Int.land (offset + (wordSzB - 1)) (Int.lnot (wordSzB - 1))

/-- `RAW_RECORD::codegen`: store a field of `szb` bytes. A pointer is stored as an ML value, and
any other value has to have the type of the field. -/
def storeRawField (arg adr : Val) (elemTy : IR.Ty) (szb : Nat) : Gen Unit :=
  if arg.getType = ptrTy then do
    -- just data of the size of a pointer, whatever the kind of the field
    assert (elemTy.bits = intTy.bits) "expected native integer field"
    createStoreML arg adr
  else do
    assert (arg.getType = elemTy) "type mismatch"
    createStore arg adr szb

/-- The loop of `RAW_RECORD::codegen` that initializes the fields; it returns
the offset after the last one. -/
def initRawFields (obj : Val) : List (RawTy .cpp) → List Val → Int → Gen Int
  | fld :: flds, arg :: args, offset => do
      let szb := bitsToBytes fld.sz
      let offset := alignOffset offset szb
      let elemTy := numType fld.kind fld.sz
      let adr ← createGEPTyConst i8Ty obj offset
      storeRawField arg adr elemTy szb
      initRawFields obj flds args (offset + szb)
  | _, _, offset => pure offset

/-- `RAW_ALLOC::codegen`: adjust the allocation point to be one word before
an aligned address. -/
def alignAllocPtr (align : Int) (allocPtr : Val) : Gen Val :=
  if align > wordSzB then do
    let a ← createPtrToInt allocPtr
    createIntToPtr (← createOr a (uConst (BitVec.ofInt 64 (align - wordSzB))))
  else pure allocPtr

/-- `RAW_ALLOC::codegen`: the allocation point after the object descriptor
was written to it, or of a tagless object for spilling. -/
def rawAllocHeader (desc : Option Asdl.Integer) (align : Int) (allocPtr : Val) : Gen Val :=
  match desc with
  | some desc => do
      let allocPtr ← alignAllocPtr align allocPtr
      let desc ← deref desc.toUInt64 "descriptor out of range"
      createStoreML (uConst desc) allocPtr
      pure allocPtr
  | none => do
      assert (align = wordSzB) "unexpected alignment for spill record"
      pure allocPtr

end Codegen

namespace CfgPrim

open Codegen Gen

/-- `alloc::codegen`, for the four constructors. The length of the object goes into the bump of
the allocation pointer, in words for a record and in bytes or words for raw storage as in the
source. -/
def Alloc.codegen (args : List Val) : Alloc .cpp → Gen Val
  | .SPECIAL => do
      assert (args.length = 2) "expected descriptor and content"
      let desc ← asInt (← argAt args 0)
      allocRecord desc [← argAt args 1]
  | .RECORD desc _ => do
      let desc ← deref desc.toUInt64 "descriptor out of range"
      allocRecord (uConst desc) args
  | .RAW_RECORD desc _ fields => do
      let allocPtr ← mlReg .ALLOC_PTR
      assert (args.length = fields.length) "incorrect number of fields"
      -- write the object descriptor
      let desc ← deref desc.toUInt64 "descriptor out of range"
      createStoreInt (uConst desc) allocPtr
      -- compute the object's address and cast it to a ML value
      let obj ← asMLValue (← createGEPConst allocPtr 1)
      let offset ← initRawFields obj fields args 0
      -- the index of this address counts words
      setMLReg .ALLOC_PTR (← createGEPConst obj (roundToWord offset))
      pure obj
  | .RAW_ALLOC desc align len => do
      let allocPtr ← mlReg .ALLOC_PTR
      let allocPtr ← rawAllocHeader desc align allocPtr
      let obj ← createBitCast (← createGEPConst allocPtr 1) ptrTy
      -- bump the allocation pointer
      let bumped ← createGEPTyConst i8Ty allocPtr (len + wordSzB)
      setMLReg .ALLOC_PTR (← createBitCast bumped ptrTy)
      pure obj

/-- The operations on two coerced integers, which have an LLVM instruction each. The shifts are
among them: LLVM leaves a shift by the width or more undefined. -/
def Pureop.binOp : Pureop → Option IR.BinOp
  | .ADD => some .add
  | .SUB => some .sub
  | .MUL => some .mul
  | .SDIV => some .sdiv
  | .SREM => some .srem
  | .UDIV => some .udiv
  | .UREM => some .urem
  | .SHL => some .shl
  | .ASHR => some .ashr
  | .LSHR => some .lshr
  | .ORB => some .or
  | .XORB => some .xor
  | .ANDB => some .and
  | _ => none

/-- `pure::codegen`. The arithmetic coerces its operands to integers, and the intrinsics and the
conversions get theirs as they come. -/
def Pure.codegen (args : List Val) : Pure .cpp → Gen Val
  | .PURE_ARITH oper sz => do
      let bits := if sz = 32 then 32 else 64
      match oper with
      | .con .CNTPOP => inst (.intrinsic .ctpop bits args) (.int bits)
      -- the argument `false` gives a result for zero
      | .con .CNTLZ => do inst (.intrinsic .ctlz bits [← argAt args 0]) (.int bits)
      | .con .CNTTZ => do inst (.intrinsic .cttz bits [← argAt args 0]) (.int bits)
      | .con .ROTL => do
          let a ← argAt args 0
          inst (.intrinsic .fshl bits [a, a, ← argAt args 1]) (.int bits)
      | .con .ROTR => do
          let a ← argAt args 0
          inst (.intrinsic .fshr bits [a, a, ← argAt args 1]) (.int bits)
      | .con .FADD => do createFBin .fadd (← argAt args 0) (← argAt args 1)
      | .con .FSUB => do createFBin .fsub (← argAt args 0) (← argAt args 1)
      | .con .FMUL => do createFBin .fmul (← argAt args 0) (← argAt args 1)
      | .con .FDIV => do createFBin .fdiv (← argAt args 0) (← argAt args 1)
      | .con .FREM => do createFBin .frem (← argAt args 0) (← argAt args 1)
      | .con .FMADD => inst (.intrinsic .fma bits args) (fType bits)
      | .con .FNEG => do createFNeg (← argAt args 0)
      | .con .FABS => inst (.intrinsic .fabs bits args) (fType bits)
      | .con .FCOPYSIGN => inst (.intrinsic .copysign bits args) (fType bits)
      | .con .FSQRT => inst (.intrinsic .sqrt bits args) (fType bits)
      | .con op => do
          let op ← deref op.binOp "no such operator"
          let a ← asIntSz sz (← argAt args 0)
          let b ← asIntSz sz (← argAt args 1)
          createBin op a b
      | .undeclared _ => fail "no such operator"
  | .EXTEND signed _ toSz => do
      let arg ← argAt args 0
      if arg.getType ≠ ptrTy then
        if signed then createSExt arg (iType toSz) else createZExt arg (iType toSz)
      else
        assert (!signed) "unexpected sign extension of ML llvm::Value"
        assert (iType toSz = intTy) "unexpected size"
        pure arg
  | .TRUNC _ toSz => do createTrunc (← argAt args 0) (iType toSz)
  | .INT_TO_FLOAT _ toSz => do createSIToFP (← argAt args 0) (fType toSz)
  | .FLOAT_TO_BITS sz => do createBitCast (← argAt args 0) (iType sz)
  | .BITS_TO_FLOAT sz => do createBitCast (← argAt args 0) (fType sz)
  | .PURE_SUBSCRIPT => do
      let base ← asPtr (← argAt args 0)
      let adr ← createGEP base (← asInt (← argAt args 1))
      createLoadABI ptrTy adr
  | .PURE_RAW_SUBSCRIPT kind sz => do
      let elemTy := numType kind sz
      let adr ← createGEPTy elemTy (← argAt args 0) (← argAt args 1)
      createLoad elemTy adr (bitsToBytes sz)
  | .RAW_SELECT kind sz offset => do
      let elemTy := numType kind sz
      let base ← asPtr (← argAt args 0)
      let adr ← createGEPTy i8Ty base (uConst (BitVec.ofInt 64 offset))
      createLoad elemTy adr (bitsToBytes sz)

/-- `looker::codegen`. The loads of mutable cells carry no mark, so LLVM may not assume anything
of them. -/
def Looker.codegen (args : List Val) : Looker .cpp → Gen Val
  | .DEREF => do createLoadABI ptrTy (← asPtr (← argAt args 0))
  | .SUBSCRIPT => do
      let baseAdr ← asPtr (← argAt args 0)
      let adr ← createGEP baseAdr (← asInt (← argAt args 1))
      createLoadABI ptrTy adr
  | .RAW_LOAD kind sz => do
      let elemTy := numType kind sz
      let adr ← createGEPTy i8Ty (← argAt args 0) (← argAt args 1)
      createLoad elemTy adr (bitsToBytes sz)
  | .RAW_SUBSCRIPT kind sz => do
      let elemTy := numType kind sz
      let adr ← createGEPTy elemTy (← argAt args 0) (← argAt args 1)
      createLoad elemTy adr (bitsToBytes sz)
  | .GET_HDLR => mlReg .EXN_HNDLR
  | .GET_VAR => mlReg .VAR_PTR

/-- `recordStore`: add an address to the store list. The cell is written at the allocation pointer
and the list is linked through its second word. -/
def recordStore (adr : Val) : Gen Unit := do
  let allocPtr ← mlReg .ALLOC_PTR
  let storePtr ← mlReg .STORE_PTR
  -- write the address into the store-list object
  createStoreML adr (← createGEPConst allocPtr 0)
  -- write the link field
  createStoreML storePtr (← createGEPConst allocPtr 1)
  -- update the store pointer
  setMLReg .STORE_PTR allocPtr
  -- bump the allocation pointer
  setMLReg .ALLOC_PTR (← createGEPConst allocPtr 2)

/-- `setter::codegen`: the boxed updates record the address before they store the value. -/
def Setter.codegen (args : List Val) : Setter .cpp → Gen Unit
  | .UNBOXED_UPDATE => do
      let adr ← createGEPTy ptrTy (← argAt args 0) (← argAt args 1)
      createStoreML (← argAt args 2) adr
  | .UPDATE => do
      let adr ← createGEPTy ptrTy (← argAt args 0) (← argAt args 1)
      recordStore adr
      createStoreML (← argAt args 2) adr
  | .UNBOXED_ASSIGN => do
      let v ← asInt (← argAt args 1)
      createStore v (← asMLValue (← argAt args 0)) wordSzB
  | .ASSIGN => do
      let adr ← argAt args 0
      recordStore adr
      createStoreML (← argAt args 1) adr
  | .RAW_UPDATE kind sz => do
      let elemTy := numType kind sz
      let adr ← createGEPTy elemTy (← argAt args 0) (← argAt args 1)
      let v ← argAt args 2
      if v.getType = ptrTy then
        assert (elemTy = intTy) "expected native integer field"
        createStoreML v adr
      else createStore v adr (bitsToBytes sz)
  | .RAW_STORE _ sz => do
      let adr ← createGEPTy i8Ty (← argAt args 0) (← argAt args 1)
      createStore (← argAt args 2) adr (bitsToBytes sz)
  | .SET_HDLR => do setMLReg .EXN_HNDLR (← argAt args 0)
  | .SET_VAR => do setMLReg .VAR_PTR (← argAt args 0)

/-- The number of an enumerator, which is its tag in a pickle and the index into the table. -/
def Cmpop.tag : Cmpop → Nat
  | .GT => 1
  | .GTE => 2
  | .LT => 3
  | .LTE => 4
  | .EQL => 5
  | .NEQ => 6

/-- The number of an enumerator, which is its tag in a pickle and the index into the table. -/
def Fcmpop.tag : Fcmpop → Nat
  | .F_EQ => 1
  | .F_ULG => 2
  | .F_UN => 3
  | .F_LEG => 4
  | .F_GT => 5
  | .F_GE => 6
  | .F_UGT => 7
  | .F_UGE => 8
  | .F_LT => 9
  | .F_LE => 10
  | .F_ULT => 11
  | .F_ULE => 12
  | .F_LG => 13
  | .F_UE => 14

/-- `ICmpMap`: signed and unsigned for each operator, the signed predicate first. -/
def ICmpMap : List IR.ICmpPred :=
  [.sgt, .ugt, .sge, .uge, .slt, .ult, .sle, .ule, .eq, .eq, .ne, .ne]

/-- `FCmpMap`, as it stands in the source: the third entry is the ordered and not the unordered
predicate. -/
def FCmpMap : List IR.FCmpPred :=
  [.oeq, .une, .one, .ord, .ogt, .oge, .ugt, .uge, .olt, .ole, .ult, .ule, .one, .ueq]

/-- The element of a table for an enumerator. An index beyond the table is a read out of bounds in
the source, and a failure here. -/
def tableAt {α ε : Type} (table : List α) (oper : Tagged ε) (idx : ε → Nat) : Gen α :=
  match oper with
  | .con op => deref table[idx op]? "no such operator"
  | .undeclared _ => fail "no such operator"

/-- `branch::codegen`: the condition of a two-way branch, as an `i1`. -/
def Branch.codegen (args : List Val) : Branch .cpp → Gen Val
  | .CMP oper signed sz => do
      let pred ← tableAt ICmpMap oper fun op => 2 * (op.tag - 1) + if signed then 0 else 1
      let a ← asIntSz sz (← argAt args 0)
      let b ← asIntSz sz (← argAt args 1)
      createICmp pred a b
  | .FCMP oper _ => do
      let pred ← tableAt FCmpMap oper fun op => op.tag - 1
      createFCmp pred (← argAt args 0) (← argAt args 1)
  | .FSGN sz => do
      -- bitcast to integer type of same size
      let a ← createBitCast (← argAt args 0) (iType sz)
      createICmp .slt a (iConstSz sz 0)
  | .PEQL => do createICmp .eq (← argAt args 0) (← argAt args 1)
  | .PNEQ => do createICmp .ne (← argAt args 0) (← argAt args 1)
  | .LIMIT amt => do
      let t ← ask (·.target)
      let allocSlop := t.allocSlopSzb
      if amt > allocSlop then
        let a ← createAdd (← mlReg .ALLOC_PTR) (uConst (BitVec.ofNat 64 (amt - allocSlop)))
        createICmp .ugt a (← asInt (← mlReg .LIMIT_PTR))
      else
        let a ← asInt (← mlReg .ALLOC_PTR)
        createICmp .ugt a (← asInt (← mlReg .LIMIT_PTR))

end CfgPrim

end SmlnjCfg
