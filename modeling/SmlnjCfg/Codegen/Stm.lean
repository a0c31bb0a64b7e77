import SmlnjCfg.Codegen.Prim

/-!
# `SmlnjCfg.Codegen.Stm`: code generation for expressions and statements

The argument conventions of `context.cpp`, the overflow block of
`overflow.cpp` and the `codegen` methods of `exp` and `stm` of
`cfg-codegen.cpp`. A statement does not know its basic block here, so the
methods get the number of the fragment and the arms that lead to the
statement. `RCC` fails, as in the source.
-/

set_option autoImplicit false

namespace SmlnjCfg

namespace Codegen

open Cfg Gen

/-! ### Argument conventions -/

/-- `arg_info`: how many arguments of which sort come before the parameters of a fragment. -/
structure ArgInfo where
  /-- Arguments for the special registers in machine registers. -/
  nExtra : Nat
  /-- `1` if there is a base-pointer argument, `0` otherwise. -/
  basePtr : Nat
  /-- Unused arguments of the convention for continuations. -/
  nUnused : Nat
  deriving DecidableEq

/-- `_getArgInfo`, for an attribute of the current cluster. Only a continuation has unused
arguments, and only a known function or an internal fragment may get the base pointer. -/
def argInfo (t : TargetInfo) (needsBasePtr : Bool) : FragKind → ArgInfo
  | .STD_FUN => ⟨t.numMachineRegs, 0, 0⟩
  | .STD_CONT => ⟨t.numMachineRegs, 0, 2⟩
  | .KNOWN_FUN => ⟨t.numMachineRegs, if t.usesBasePtr && needsBasePtr then 1 else 0, 0⟩
  | .INTERNAL => ⟨t.numMachineRegs, if t.usesBasePtr && needsBasePtr then 1 else 0, 0⟩

/-- The attribute of the current cluster, and not of the one that is called. -/
def needsBasePtr (c : Context) : Bool :=
  match c.curCluster with
  | some cluster => cluster.attrs.needsBasePtr
  | none => false

/-- `_getArgInfo`: for a kind that is not declared the source returns what is in the record, and
the model fails. -/
def getArgInfo (kind : Tagged FragKind) : Gen ArgInfo := do
  let t ← ask (·.target)
  let needs ← ask needsBasePtr
  match kind with
  | .con kind => pure (argInfo t needs kind)
  | .undeclared _ => fail "no such fragment kind"

/-- `createParamTys`, from the argument information: the special registers and the unused
arguments are pointers, and the base pointer is an integer. -/
def paramTysOf (info : ArgInfo) : List IR.Ty :=
  List.replicate info.nExtra ptrTy
    ++ (if info.basePtr = 0 then [] else [intTy])
    ++ List.replicate info.nUnused ptrTy

/-- `createParamTys`: the implicit parameters of a kind. -/
def createParamTys (kind : Tagged FragKind) : Gen (List IR.Ty) := do
  pure (paramTysOf (← getArgInfo kind))

/-- `createFnTy`: the implicit parameters and then the given ones. -/
def createFnTy (kind : Tagged FragKind) (tys : List IR.Ty) : Gen (List IR.Ty) := do
  pure ((← createParamTys kind) ++ tys)

/-- `_addExtraArgs`: the special registers in machine registers, from the register state. -/
def addExtraArgs (rs : CMRegState) : List CMRegId → Gen (List Val)
  | [] => pure []
  | r :: regs => do
      let v ← deref (rs.val r) "undefined special register"
      let vs ← addExtraArgs rs regs
      pure (v :: vs)

/-- `_addExtraArgs`: the base pointer, if the convention has one. -/
def addBaseArg (rs : CMRegState) (info : ArgInfo) : Gen (List Val) :=
  if info.basePtr = 0 then pure []
  else do
    let basePtr ← deref rs.basePtr "undefined base pointer"
    pure [basePtr]

/-- `createArgs`: the implicit arguments for a kind of fragment, in the order of
`createParamTys`. -/
def createArgs (kind : Tagged FragKind) : Gen (List Val) := do
  let info ← getArgInfo kind
  let t ← ask (·.target)
  let rs ← ask (·.regState)
  let extra ← addExtraArgs rs t.machineRegs
  let base ← addBaseArg rs info
  -- the unused argument registers get the undefined value
  pure (extra ++ base ++ List.replicate info.nUnused (.undef ptrTy))

/-! ### Blocks, phi nodes and terminators -/

/-- `newBB`: a block with a fresh number, still empty. -/
def newBB : CodegenM BBId := do
  let c ← get
  let bb := BBId.new c.nextBB
  set { c with nextBB := c.nextBB + 1, body := { c.body with blocks := c.body.blocks ++ [bb] } }
  return bb

/-- `setInsertPoint`: the code goes to the end of this block from now on. -/
def setInsertPoint (bb : BBId) : CodegenM Unit := modify fun c => { c with curBB := bb }

/-- `getCurBB`: the block that the code goes to. -/
def getCurBB : CodegenM BBId := do return (← get).curBB

/-- End the current block. The source does not check that a block is ended once. -/
def createTerm (t : IR.Terminator BBId Sym) : CodegenM Unit := modify (·.append (.term t))

/-- A call that does not return here: a tail call, or one that is followed by a return at once. -/
def createExitCall (isTail : Bool) (fn : Val) (args : List Val) : CodegenM Unit :=
  modify (·.append (.exitCall isTail fn args))

/-- `CreatePHI`, in the current block, with no incoming value yet. -/
def createPHI (ty : IR.Ty) : CodegenM Nat := do
  let c ← get
  set { c with
    nextId := c.nextId + 1
    body := { c.body with phis := c.body.phis ++ [(c.curBB, c.nextId, ty)] } }
  return c.nextId

/-- `addIncoming`: the value of a phi node for one predecessor. -/
def addIncoming (phi : Nat) (v : Val) (bb : BBId) : CodegenM Unit :=
  modify fun c =>
    { c with body := { c.body with incoming := c.body.incoming ++ [(phi, v, bb)] } }

/-- `insertVal`: a map from lvars to values, where an insertion does not
replace a binding. -/
def insertVal (lv : LVar) (v : Val) : CodegenM Unit :=
  modify fun c =>
    { c with vMap := fun lv' =>
        if lv' = lv ∧ c.vMap lv = none then some v else c.vMap lv' }

/-- `param::bind`: the value of a parameter, where the name has none yet. -/
def bindParam (p : Param) (v : Val) : CodegenM Unit := insertVal p.name v

/-- `createJWACall` and the return after it, which make a tail call of the convention. -/
def createJWACall (fn : Val) (args : List Val) : CodegenM Unit := createExitCall true fn args

/-- `saveSMLRegState`: the register state in front of the arms of a branch. -/
def saveSMLRegState : CodegenM CMRegState := do return (← get).regState

/-- `restoreSMLRegState`: the saved values come back for the next arm. -/
def restoreSMLRegState (saved : CMRegState) : CodegenM Unit :=
  modify fun c => { c with regState := c.regState.copyFrom saved }

/-- Make the phi nodes of a list of types, in its order. -/
def createPHIs : List IR.Ty → CodegenM (List Nat)
  | [] => return []
  | ty :: tys => do
      let phi ← createPHI ty
      let phis ← createPHIs tys
      return phi :: phis

/-- The block that raises `Overflow`, made when it is first needed. -/
def newOverflowBB : CodegenM BBId := do
  let srcBB ← getCurBB
  let t := (← get).target
  let bb ← newBB
  setInsertPoint bb
  -- phi nodes for the special registers, so that changes of the ML state
  -- before the arithmetic operation are recorded
  let phis ← createPHIs (List.replicate t.numMachineRegs ptrTy)
  modify fun c => { c with overflowBB := some bb, overflowPhiNodes := phis }
  -- fetch the raise_overflow code address from the stack
  let raiseFn ← liftM (loadFromStack t.raiseOvflwOffset)
  let fn ← liftM (createBitCast raiseFn ptrTy)
  -- not a tail call: the return address tells the run-time system the module
  createExitCall false fn (phis.map fun phi => .inst phi ptrTy)
  createTerm .retVoid
  setInsertPoint srcBB
  return bb

/-- The values of the special registers come into the phi nodes of the overflow block, which
are of type `ptr`. `addIncoming` of LLVM asserts that an operand of a phi node is of the type of
the phi node, and nothing converts the values here: a register that `SET_HDLR` or `SET_VAR`
gave an integer makes it fail. -/
def addOverflowIncoming (srcBB : BBId) (rs : CMRegState) :
    List Nat → List CMRegId → CodegenM Unit
  | phi :: phis, r :: regs => do
      let v ← liftM (deref (rs.val r) "undefined special register")
      liftM (assert (v.getType == ptrTy)
        "All operands to PHI node must be the same type as the PHI node!")
      addIncoming phi v srcBB
      addOverflowIncoming srcBB rs phis regs
  | _, _ => return ()

/-- The overflow block, which is made once for each cluster. -/
def theOverflowBB : CodegenM BBId := do
  match (← get).overflowBB with
  | some bb => return bb
  | none => newOverflowBB

/-- `getOverflowBB`: the block, after the phi nodes in it got the special registers of this
place. -/
def getOverflowBB : CodegenM BBId := do
  let srcBB ← getCurBB
  let bb ← theOverflowBB
  let c ← get
  addOverflowIncoming srcBB c.regState c.overflowPhiNodes c.target.machineRegs
  return bb

/-- The registers of the struct that call-gc returns, from index `ix` on. -/
def extractRegs (call : Nat) : List CMRegId → Nat → Gen Unit
  | [], _ => pure ()
  | r :: regs, ix => do
      let reg ← inst (.extract call ix) ptrTy
      setMLReg r reg
      extractRegs call regs (ix + 1)

/-- The new roots in the struct that call-gc returns, from index `ix` on. -/
def extractRoots (call : Nat) : List LVar → Nat → CodegenM Unit
  | [], _ => return ()
  | lv :: lvs, ix => do
      let v ← liftM (inst (.extract call ix) ptrTy)
      insertVal lv v
      extractRoots call lvs (ix + 1)

/-- The call of the garbage collector; the result is the number of the
struct. -/
def createGCCall (roots : List Val) : Gen Nat := do
  let t ← ask (·.target)
  assert (t.numMachineRegs + t.numGCRoots = roots.length) "arity mismatch in GC call"
  -- get the address of the "call-gc" entry
  let callGCFn ← loadFromStack t.callGCOffset
  let fn ← createBitCast callGCFn ptrTy
  .emit (.call fn roots) fun call => pure call

/-- `callGC`: the call, and then the special registers and the new roots out of its result. The
old values are stale after it. -/
def callGC (roots : List Val) (newRoots : List LVar) : CodegenM Unit := do
  let t := (← get).target
  let call ← liftM (createGCCall roots)
  -- restore the register state from the return struct
  liftM (extractRegs call t.machineRegs 0)
  -- extract the new roots from the return struct
  extractRoots call newRoots t.numMachineRegs

end Codegen

/-! ### Expressions -/

namespace Cfg

open Codegen Gen

mutual

/-- `exp::codegen`. A field of a record is loaded with the invariant mark, and everything else is
left to the operation. -/
def Exp.codegen : Exp .cpp → Gen Val
  | .VAR name => do
      let v ← ask (·.vMap name)
      deref v "unbound variable"
  | .LABEL name => evalLabel name
  | .NUM iv sz =>
      if iv.getSign < 0 then do
        let n ← deref iv.toInt64 "integer out of range"
        pure (iConstSz sz n.toInt)
      else do
        let n ← deref iv.toUInt64 "integer out of range"
        pure (uConstSz sz n)
  | .LOOKER oper args => do
      let args ← Exp.codegenArgs args
      oper.codegen args
  | .PURE oper args => do
      let args ← Exp.codegenArgs args
      oper.codegen args
  | .SELECT idx arg => do
      let base ← asPtr (← arg.codegen)
      let adr ← createGEPConst base idx
      createLoadInvariant ptrTy adr

/-- The arguments of an operation, from left to right, with all their code before the operation's
own. -/
def Exp.codegenArgs : List (Exp .cpp) → Gen (List Val)
  | [] => pure []
  | e :: es => do
      let v ← e.codegen
      let vs ← Exp.codegenArgs es
      pure (v :: vs)

end

end Cfg

/-! ### Statements -/

namespace CfgPrim

open Codegen Gen

/-- The intrinsic of an operator, if it may overflow. The divisions have none, as the source
relies on the trap of the x86-64 division. -/
def Arithop.overflowOp : Arithop → Option IR.OverflowOp
  | .IADD => some .sadd
  | .ISUB => some .ssub
  | .IMUL => some .smul
  | .IDIV => none
  | .IREM => none

/-- `arith::codegen`: an intrinsic, its two results, and a branch to the overflow block. -/
def Arith.codegen (args : List Val) : Arith .cpp → CodegenM Val
  | .ARITH oper sz => do
      liftM (assert (args.length = 2) "expected two arguments")
      let a ← liftM (argAt args 0)
      let a ← liftM (asIntSz sz a)
      let b ← liftM (argAt args 1)
      let b ← liftM (asIntSz sz b)
      match oper with
      | .con .IDIV => liftM (createSDiv a b)
      | .con .IREM => liftM (createSRem a b)
      | .con op => do
          let bits := if sz = 32 then 32 else 64
          let op ← liftM (deref op.overflowOp "no such operator")
          let pair ← liftM (Gen.emit (.overflow op bits a b) Gen.ret)
          let res ← liftM (inst (.extract pair 0) (.int bits))
          let obit ← liftM (inst (.extract pair 1) (.int 1))
          let next ← newBB
          let ovflw ← getOverflowBB
          createTerm (.condBr obit ovflw next (some 1))
          -- switch to the new block for the continuation
          setInsertPoint next
          return res
      | .undeclared _ => liftM (fail (α := Val) "no such operator")
  | .FLOAT_TO_INT _ _ toSz => do
      let a ← liftM (argAt args 0)
      liftM (createFPToSI a (iType toSz))

end CfgPrim

namespace Codegen

open Cfg Gen

/-- Cast an argument to the type of its parameter, if that is another one. -/
def castToTy (tgtTy : IR.Ty) (arg : Val) : Gen Val :=
  if arg.getType ≠ tgtTy then castTy arg.getType tgtTy arg else pure arg

/-- The roots of a `CALLGC`: all are SML values, so they get that type. -/
def rootArgs : List (Exp .cpp) → Gen (List Val)
  | [] => pure []
  | e :: es => do
      let v ← asMLValue (← e.codegen)
      let vs ← rootArgs es
      pure (v :: vs)

/-- `SetupStdArgs`, from the index of the first user argument on: each argument is cast to the
type that the callee declares. -/
def castArgs (fnTy : List IR.Ty) : List (Exp .cpp) → Nat → Gen (List Val)
  | [], _ => pure []
  | e :: es, i => do
      let arg ← e.codegen
      let paramTy ← deref fnTy[i]? "too many arguments"
      let arg ← castToTy paramTy arg
      let args ← castArgs fnTy es (i + 1)
      pure (arg :: args)

/-- `SetupStdArgs`: the implicit arguments of the kind, and the user's. -/
def setupStdArgs (fnTy : List IR.Ty) (fk : Tagged FragKind) (cfgArgs : List (Exp .cpp)) :
    Gen (List Val) := do
  let args ← createArgs fk
  let rest ← castArgs fnTy cfgArgs args.length
  pure (args ++ rest)

/-- The check that the maximum number of argument registers is not exceeded. -/
def checkArgRegs (nGP nFP : Int) (tys : List Ty) : Bool :=
  0 ≤ nGP - (tys.countP fun ty => !isFLTt ty) ∧ 0 ≤ nFP - (tys.countP isFLTt)

/-- The label an expression is: the source tests the class of the node. -/
def isLABEL : Exp .cpp → Option LVar
  | .LABEL name => some name
  | _ => none

/-- The entry fragment of a cluster, its first one. -/
def entry (cluster : Cluster .cpp) : Gen (Frag .cpp) :=
  deref cluster.frags.head? "no entry fragment"

/-- The outgoing values of a `GOTO` come into the phi nodes of its target. -/
def addFragIncoming (srcBB : BBId) (phis : List (Nat × IR.Ty)) :
    List Val → Nat → CodegenM Unit
  | [], _ => return ()
  | arg :: args, i => do
      let (phi, tgtTy) ← liftM (deref phis[i]? "too many arguments")
      -- make sure that the types match
      let v ← liftM (castToTy tgtTy arg)
      addIncoming phi v srcBB
      addFragIncoming srcBB phis args (i + 1)

/-- The function and the type that an `APPLY` or a `THROW` transfers to, with
the convention of the arguments. -/
def callee (fn : Exp .cpp) (kind : FragKind) (tys : List Ty) (what : String) :
    Gen (Val × List IR.Ty × Tagged FragKind) := do
  match isLABEL fn with
  | none => do
      let fnTy ← createFnTy (.con kind) (tys.map genTy)
      let f ← fn.codegen
      let f ← createBitCast f ptrTy
      pure (f, fnTy, .con kind)
  | some lab => do
      let f ← ask (·.clusterMap lab)
      let f ← deref f what
      let entry ← entry f.cluster
      pure (.global (.fn f.fn.name) ptrTy, f.fn.fnTy, entry.kind)

end Codegen

namespace Cfg

open Codegen Gen

mutual

/-- `stm::codegen`, for all eleven statements. The arms of a branch are generated one after the
other into blocks of their own, each from the registers at the branch. -/
def Stm.codegen (frag : Nat) : Stm .cpp → List Nat → CodegenM Unit
  | .LET exp param k, path => do
      let v ← liftM exp.codegen
      bindParam param v
      k.codegen frag path
  | .ALLOC oper args lhs k, path => do
      let args ← liftM (Exp.codegenArgs args)
      let v ← liftM (oper.codegen args)
      insertVal lhs v
      k.codegen frag path
  | .APPLY fn args tys, _ => do
      let (f, fnTy, fk) ← liftM (callee fn .STD_FUN tys "APPLY of unknown cluster")
      let t := (← get).target
      liftM (assert (checkArgRegs t.numGPArgRegs t.numFPArgRegs tys) "too many arguments")
      let args ← liftM (setupStdArgs fnTy fk args)
      createJWACall f args
      createTerm .retVoid
  | .THROW fn args tys, _ => do
      let (f, fnTy, _) ← liftM (callee fn .STD_CONT tys "THROW of unknown cluster")
      let t := (← get).target
      -- two unused registers
      liftM (assert (checkArgRegs (t.numGPArgRegs - 2) t.numFPArgRegs tys) "too many arguments")
      let args ← liftM (setupStdArgs fnTy (.con .STD_CONT) args)
      createJWACall f args
      createTerm .retVoid
  | .GOTO lab args, _ => do
      let srcBB ← getCurBB
      let dstFrag ← liftM (deref ((← get).fragMap lab) "GOTO of unknown fragment")
      liftM (assert (dstFrag.frag.kind = .con .INTERNAL) "not an internal fragment")
      -- evaluate the arguments
      let extra ← liftM (createArgs (.con .INTERNAL))
      let args ← liftM (Exp.codegenArgs args)
      -- casts for the phi nodes are generated in the source block, so the
      -- transfer comes after them
      addFragIncoming srcBB dstFrag.phiNodes (extra ++ args) 0
      createTerm (.br dstFrag.bb)
  | .SWITCH arg cases, path => do
      -- evaluate the argument and truncate to 32 bits
      let arg ← liftM arg.codegen
      let arg ← liftM (asInt arg)
      let arg ← liftM (createTrunc arg i32Ty)
      let curBlk ← getCurBB
      -- the default case is unreachable
      let dfltBlk ← newBB
      setInsertPoint dfltBlk
      createTerm .unreachable
      -- create the switch in the current block
      setInsertPoint curBlk
      createTerm (.switch arg dfltBlk
        ((List.range cases.length).map fun (i : Nat) =>
          ((BitVec.ofInt 32 i).toNat, BBId.stm frag (i :: path))))
      -- generate the code for the basic blocks
      let saveRegs ← saveSMLRegState
      Stm.codegenArms frag saveRegs cases path 0
  | .BRANCH oper args prob trueK falseK, path => do
      -- evaluate the test
      let args ← liftM (Exp.codegenArgs args)
      let cond ← liftM (oper.codegen args)
      -- generate the conditional branch; zero is no branch prediction
      createTerm (.condBr cond (.stm frag (0 :: path)) (.stm frag (1 :: path))
        (if prob = 0 then none else some prob))
      -- generate code for the true branch
      let saveRegs ← saveSMLRegState
      setInsertPoint (.stm frag (0 :: path))
      trueK.codegen frag (0 :: path)
      -- generate code for the false branch
      restoreSMLRegState saveRegs
      setInsertPoint (.stm frag (1 :: path))
      falseK.codegen frag (1 :: path)
  | .ARITH oper args param k, path => do
      let args ← liftM (Exp.codegenArgs args)
      let v ← oper.codegen args
      bindParam param v
      k.codegen frag path
  | .SETTER oper args k, path => do
      let args ← liftM (Exp.codegenArgs args)
      liftM (oper.codegen args)
      k.codegen frag path
  | .CALLGC roots newRoots k, path => do
      let extra ← liftM (createArgs (.con .STD_FUN))
      let vs ← liftM (rootArgs roots)
      callGC (extra ++ vs) newRoots
      k.codegen frag path
  | .RCC .., _ => liftM (fail (α := Unit) "RCC not yet implemented")

/-- The arms of a `SWITCH`, from number `i` on. The map of variables runs through all of them. -/
def Stm.codegenArms (frag : Nat) (saveRegs : CMRegState) :
    List (Stm .cpp) → List Nat → Nat → CodegenM Unit
  | [], _, _ => return ()
  | k :: ks, path, i => do
      restoreSMLRegState saveRegs
      setInsertPoint (.stm frag (i :: path))
      k.codegen frag (i :: path)
      Stm.codegenArms frag saveRegs ks path (i + 1)

end

end Cfg

end SmlnjCfg
