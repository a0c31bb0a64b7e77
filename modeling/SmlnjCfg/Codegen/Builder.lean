import SmlnjCfg.Codegen.Context

/-!
# `SmlnjCfg.Codegen.Builder`: the shorthands of the context

The members of `Context` that the `codegen` methods are written with:
coercions between pointers and integers, constants, arithmetic, addresses,
loads and stores, the CMachine registers and record allocation. Where the
source overloads a name, the variants have a suffix: `Sz` for a bit size,
`Ty` for an element type and `Const` for a constant index.
-/

set_option autoImplicit false

namespace SmlnjCfg.Codegen

open Gen

/-! ### Coercions and constants -/

/-- `CreateCast` and the casts of LLVM's `IRBuilder` behind it: the builder returns the value
itself when it already has the type, so that no instruction is emitted for a cast that does
nothing. -/
def createCast (op : IR.CastOp) (v : Val) (ty : IR.Ty) : Gen Val :=
  if v.getType = ty then pure v else inst (.cast op v ty) ty

/-- `asPtr`: an integer becomes a pointer by `inttoptr`. A float is neither, and the source stops
with its assertion here, so the model fails. -/
def asPtr (v : Val) : Gen Val :=
  if v.getType.isPointerTy then pure v
  else if v.getType.isIntegerTy then createCast .intToPtr v ptrTy
  else fail "invalid type conversion"

/-- `asMLValue`: an ML value is a pointer for LLVM, and `mlValueTy` is the pointer type on both
targets. -/
def asMLValue (v : Val) : Gen Val := asPtr v

/-- `asInt`: a pointer becomes an integer of native size. Every other value, a float included,
passes unchanged, as in the source. -/
def asInt (v : Val) : Gen Val :=
  if v.getType.isPointerTy then createCast .ptrToInt v intTy else pure v

/-- `asInt` for a bit size: the pointer goes to an integer of that size, and not of native size,
which is the only difference to `asInt`. -/
def asIntSz (sz : Int) (v : Val) : Gen Val :=
  if v.getType = ptrTy then createCast .ptrToInt v (iType sz) else pure v

/-- `castTy`: from an actual to a formal parameter. The types are those that the caller and the
callee declare, so a pair that is neither a pointer nor an integer on one side is refused. -/
def castTy (srcTy tgtTy : IR.Ty) (v : Val) : Gen Val :=
  if tgtTy.isPointerTy then
    if srcTy.isPointerTy then createCast .bitCast v tgtTy else createCast .intToPtr v tgtTy
  else if tgtTy.isIntegerTy && srcTy.isPointerTy then createCast .ptrToInt v tgtTy
  else fail "invalid type cast"

/-- `iConst`: a signed constant, reduced to the bits of the type that `iType` picks for the
size. -/
def iConstSz (sz : Int) (c : Int) : Val := .const (iBits sz) (BitVec.ofInt (iBits sz) c).toNat

/-- `iConst` of native size, for counters and offsets that the code generator computes itself. -/
def iConst (c : Int) : Val := iConstSz 64 c

/-- `i32Const`: the index type of the constant `getelementptr`s. -/
def i32Const (n : Int) : Val := iConstSz 32 n

/-- `uConst`: an unsigned constant. The source takes it as a 64-bit word, of which the low bits
stay. -/
def uConstSz (sz : Int) (c : Word) : Val := .const (iBits sz) (c.setWidth (iBits sz)).toNat

/-- `uConst` of native size, for descriptors and masks. -/
def uConst (c : Word) : Val := uConstSz 64 c

/-! ### Arithmetic -/

/-- `createAdd` and its siblings, one for each integer operation of LLVM: the operands are
coerced to integers first, since an ML value is a pointer for LLVM. -/
def createBin (op : IR.BinOp) (a b : Val) : Gen Val := do
  let a ← asInt a
  let b ← asInt b
  inst (.bin op a b) a.getType

/-- `createAdd`, which the addresses of stack slots and labels are computed with. -/
def createAdd (a b : Val) : Gen Val := createBin .add a b

/-- `createSDiv`. There is no check for a zero divisor or for the least value in the builder. -/
def createSDiv (a b : Val) : Gen Val := createBin .sdiv a b

/-- `createSRem`, with the same gaps as `createSDiv`. -/
def createSRem (a b : Val) : Gen Val := createBin .srem a b

/-- `createOr`, with which raw storage is aligned. -/
def createOr (a b : Val) : Gen Val := createBin .or a b

/-- `createICmp`: pointers are compared as integers, so both operands are coerced first. -/
def createICmp (pred : IR.ICmpPred) (a b : Val) : Gen Val := do
  let a ← asInt a
  let b ← asInt b
  inst (.icmp pred a b) (.int 1)

/-- `createFCmp`. Floats are never coerced: an integer operand is an error of the input. -/
def createFCmp (pred : IR.FCmpPred) (a b : Val) : Gen Val := inst (.fcmp pred a b) (.int 1)

/-- `createFAdd` and its siblings: the result has the type of the first operand. -/
def createFBin (op : IR.FBinOp) (a b : Val) : Gen Val := inst (.fbin op a b) a.getType

/-- `createFNeg`, LLVM's own instruction and not a subtraction from zero. -/
def createFNeg (v : Val) : Gen Val := inst (.fneg v) v.getType

/-- `createSExt`, for `EXTEND` of a signed value. -/
def createSExt (v : Val) (ty : IR.Ty) : Gen Val := createCast .sext v ty
/-- `createZExt`, for `EXTEND` of an unsigned value. -/
def createZExt (v : Val) (ty : IR.Ty) : Gen Val := createCast .zext v ty
/-- `createTrunc`: the operand has to be an integer, and the builder does not coerce it. -/
def createTrunc (v : Val) (ty : IR.Ty) : Gen Val := createCast .trunc v ty
/-- `createSIToFP`, for `INT_TO_FLOAT`. -/
def createSIToFP (v : Val) (ty : IR.Ty) : Gen Val := createCast .siToFP v ty
/-- `createFPToSI`, for `FLOAT_TO_INT`: it rounds towards zero, whatever the mode of the operation
is. -/
def createFPToSI (v : Val) (ty : IR.Ty) : Gen Val := createCast .fpToSI v ty
/-- `createIntToPtr` to the type of an ML value. -/
def createIntToPtr (v : Val) : Gen Val := createCast .intToPtr v ptrTy
/-- `createPtrToInt` to the native integer. -/
def createPtrToInt (v : Val) : Gen Val := createCast .ptrToInt v intTy
/-- `createBitCast`, between floats and integers of one size, and where the source casts a pointer
to a pointer. -/
def createBitCast (v : Val) (ty : IR.Ty) : Gen Val := createCast .bitCast v ty

/-! ### Addresses, loads and stores -/

/-- `createGEP` of an ML value: the index counts words, since the element type is the ML value. -/
def createGEP (base idx : Val) : Gen Val := inst (.gep ptrTy base idx) ptrTy

/-- `createGEP` of an ML value with a constant index, which also counts words. -/
def createGEPConst (base : Val) (idx : Int) : Gen Val :=
  inst (.gep ptrTy base (i32Const idx)) ptrTy

/-- `createGEP` of a value of a type: the index counts elements of the type, and an integer base
is coerced to a pointer. -/
def createGEPTy (elemTy : IR.Ty) (base idx : Val) : Gen Val := do
  let base ← asPtr base
  inst (.gep elemTy base idx) ptrTy

/-- `createGEP` of a value of a type with a constant index, with the same coercion of the base. -/
def createGEPTyConst (elemTy : IR.Ty) (base : Val) (idx : Int) : Gen Val := do
  let base ← asPtr base
  inst (.gep elemTy base (i32Const idx)) ptrTy

/-- `createLoad`: the alignment is the caller's, in bytes. -/
def createLoad (ty : IR.Ty) (adr : Val) (align : Nat) : Gen Val := inst (.load ty adr align) ty

/-- `CreateLoad` with the alignment of the type, which is its number of bytes for every type
here. -/
def createLoadABI (ty : IR.Ty) (adr : Val) : Gen Val := inst (.load ty adr ty.bytes) ty

/-- `setInvarianteLoadMD` of a `CreateLoad`: the load is marked with `!invariant.load`. The mark
is a promise to LLVM that the bytes never change while they can be read, so the load is an
instruction of its own and not a `load` with a remark. -/
def createLoadInvariant (ty : IR.Ty) (adr : Val) : Gen Val :=
  inst (.loadInvariant ty adr ty.bytes) ty

/-- `createStoreML`: the value is stored as an ML value, so an integer becomes a pointer on the
way. -/
def createStoreML (v adr : Val) : Gen Unit := do
  let v ← asMLValue v
  let adr ← asPtr adr
  inst_ (.store v adr wordSzB)

/-- `createStoreInt`: only the address is coerced, and the value keeps its type. -/
def createStoreInt (v adr : Val) : Gen Unit := do
  let adr ← asPtr adr
  inst_ (.store v adr wordSzB)

/-- `createStore` with an alignment of the caller's. -/
def createStore (v adr : Val) (align : Nat) : Gen Unit := inst_ (.store v adr align)

/-! ### The stack and the CMachine registers -/

/-- `stkAddr`: the address of a slot of the stack frame, by arithmetic on the stack pointer. -/
def stkAddr (offset : Int) : Gen Val := do
  let sp ← inst .readSP intTy
  let a ← createAdd sp (iConst offset)
  createIntToPtr a

/-- `_loadFromStack`: the word of a slot, always loaded as an ML value. -/
def loadFromStack (offset : Int) : Gen Val := do
  let adr ← stkAddr offset
  inst (.load ptrTy adr wordSzB) ptrTy

/-- `_loadMemReg`: a special register that lives in the stack frame is read from its slot. -/
def loadMemReg (r : CMRegId) : Gen Val := do
  let t ← ask (·.target)
  loadFromStack (t.stkOffset r)

/-- `_storeMemReg`: the value goes to the slot with the type it has, so an integer is stored as
one. -/
def storeMemReg (r : CMRegId) (v : Val) : Gen Unit := do
  let t ← ask (·.target)
  let adr ← stkAddr (t.stkOffset r)
  inst_ (.store v adr wordSzB)

/-- `mlReg`: the value of a special register. The register state holds a value exactly for the
machine registers, and no value means that the register lives in the stack frame. -/
def mlReg (r : CMRegId) : Gen Val := do
  match ← ask (·.regState.val r) with
  | none => loadMemReg r
  | some reg => pure reg

/-- `setMLReg`: a machine register is only recorded in the register state, and no code is emitted.
The recorded value keeps its type, which is how an integer gets into the register state. -/
def setMLReg (r : CMRegId) (v : Val) : Gen Unit := do
  match ← ask (·.regState.val r) with
  | none => storeMemReg r v
  | some _ => .setReg r v (pure ())

/-- The loop of `allocRecord` that initializes the fields from number `i` on. -/
def initFields (allocPtr : Val) : List Val → Nat → Gen Unit
  | [], _ => pure ()
  | arg :: args, i => do
      let v ← asMLValue arg
      let adr ← createGEPConst allocPtr i
      inst_ (.store v adr wordSzB)
      initFields allocPtr args (i + 1)

/-- `allocRecord`: the descriptor, then the fields, then the allocation pointer. The stores come
before the bump, and the object's address is taken from the old pointer, one word past the
descriptor. -/
def allocRecord (desc : Val) (args : List Val) : Gen Val := do
  assert (desc.getType = intTy) "descriptor should be an integer"
  let allocPtr ← mlReg .ALLOC_PTR
  -- write object descriptor
  inst_ (.store desc allocPtr wordSzB)
  initFields allocPtr args 1
  -- compute the object's address and cast it to an ML value
  let adr ← createGEPConst allocPtr 1
  let obj ← asMLValue adr
  -- bump the allocation pointer
  let bumped ← createGEPConst allocPtr (args.length + 1)
  setMLReg .ALLOC_PTR bumped
  pure obj

/-! ### Labels -/

/-- `evalLabel`. With PC-relative addressing the value is an alias of the function, which is made
once for each label and module. Otherwise it is computed from the base pointer. -/
def evalLabel (lab : LVar) : Gen Val := do
  let cluster ← ask (·.clusterMap lab)
  let cluster ← deref cluster "Unknown cluster label"
  let t ← ask (·.target)
  if t.hasPCRel then
    memoize (.label lab)
    pure (.global (.alias cluster.fn.name) ptrTy)
  else
    let basePtr ← ask (·.regState.basePtr)
    let basePtr ← deref basePtr "basePtr is not defined"
    let curFn ← ask (·.curFn)
    let curFn ← deref curFn "no current function"
    let a ← createAdd basePtr (.global (.labelDiff cluster.fn.name curFn.name) ptrTy)
    createCast .intToPtr a ptrTy

end SmlnjCfg.Codegen
