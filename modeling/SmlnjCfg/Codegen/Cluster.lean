import SmlnjCfg.Codegen.Stm

/-!
# `SmlnjCfg.Codegen.Cluster`: initialization and code generation of clusters

The `init` methods of `cfg-init.cpp`, the entry conventions of
`context.cpp`, and the `codegen` methods of `frag`, `cluster` and
`comp_unit`. Instructions and blocks are numbered from zero in each
function.
-/

set_option autoImplicit false

namespace SmlnjCfg

namespace Codegen

open Cfg Gen

/-! ### Initialization -/

/-- `_initBB`: make the block of a statement that starts one. -/
def initBB (bb : BBId) (blkEntry : Bool) : CodegenM Unit :=
  if blkEntry then
    modify fun c => { c with body := { c.body with blocks := c.body.blocks ++ [bb] } }
  else return ()

end Codegen

namespace Cfg

open Codegen Gen

mutual

/-- `stm::init`. -/
def Stm.init (frag : Nat) : Stm .cpp → List Nat → Bool → CodegenM Unit
  | .LET _ _ k, path, blkEntry => do
      initBB (.stm frag path) blkEntry
      k.init frag path false
  | .ALLOC _ _ _ k, path, blkEntry => do
      initBB (.stm frag path) blkEntry
      k.init frag path false
  | .APPLY .., path, blkEntry => initBB (.stm frag path) blkEntry
  | .THROW .., path, blkEntry => initBB (.stm frag path) blkEntry
  | .GOTO .., path, blkEntry => initBB (.stm frag path) blkEntry
  | .SWITCH _ cases, path, blkEntry => do
      initBB (.stm frag path) blkEntry
      Stm.initArms frag cases path 0
  | .BRANCH _ _ _ trueK falseK, path, blkEntry => do
      initBB (.stm frag path) blkEntry
      trueK.init frag (0 :: path) true
      falseK.init frag (1 :: path) true
  | .ARITH _ _ _ k, path, blkEntry => do
      initBB (.stm frag path) blkEntry
      k.init frag path false
  | .SETTER _ _ k, path, blkEntry => do
      initBB (.stm frag path) blkEntry
      k.init frag path false
  | .CALLGC _ _ k, path, blkEntry => do
      initBB (.stm frag path) blkEntry
      k.init frag path false
  | .RCC _ _ _ _ _ _ k, path, blkEntry => do
      initBB (.stm frag path) blkEntry
      k.init frag path false

/-- The arms of a `SWITCH`, from number `i` on. -/
def Stm.initArms (frag : Nat) : List (Stm .cpp) → List Nat → Nat → CodegenM Unit
  | [], _, _ => return ()
  | k :: ks, path, i => do
      k.init frag (i :: path) true
      Stm.initArms frag ks path (i + 1)

end

end Cfg

namespace Codegen

open Cfg Gen

/-- `insertFrag`: an insertion does not replace a binding. -/
def insertFrag (lab : LVar) (frag : FragBB) : CodegenM Unit :=
  modify fun c =>
    { c with fragMap := fun lab' =>
        if lab' = lab ∧ (c.fragMap lab).isNone then some frag else c.fragMap lab' }

/-- `insertCluster`: an insertion does not replace a binding. -/
def insertCluster (lab : LVar) (cluster : ClusterFn) : CodegenM Unit :=
  modify fun c =>
    { c with clusterMap := fun lab' =>
        if lab' = lab ∧ (c.clusterMap lab).isNone then some cluster else c.clusterMap lab' }

/-- `frag::init`: a phi node for each parameter of an internal fragment. -/
def initPhis (bb : BBId) (frag : Frag .cpp) : CodegenM (List (Nat × IR.Ty)) :=
  if frag.kind = .con .INTERNAL then do
    -- compute the parameter types for the fragment
    let tys ← liftM (createParamTys frag.kind)
    let tys := tys ++ frag.params.map fun p => genTy p.ty
    -- for each parameter, add a phi node to the entry block
    setInsertPoint bb
    let phis ← createPHIs tys
    return phis.zip tys
  else return []

/-- `frag::init` for the fragment with number `i`. -/
def initFrag (i : Nat) (frag : Frag .cpp) : CodegenM FragBB := do
  frag.body.init i [] true
  let phiNodes ← initPhis (.stm i []) frag
  let fragBB := { frag := frag, bb := .stm i [], phiNodes := phiNodes }
  insertFrag frag.lab fragBB
  return fragBB

/-- `cluster::init`. -/
def initCluster (cluster : Cluster .cpp) : CodegenM ClusterFn := do
  let entry ← liftM (entry cluster)
  -- the attributes of the cluster are needed for the type
  modify fun c => { c with curCluster := some cluster }
  let fnTy ← liftM (createFnTy entry.kind (entry.params.map fun p => genTy p.ty))
  let cf := { cluster := cluster, fn := { name := entry.lab, fnTy := fnTy } }
  insertCluster entry.lab cf
  return cf

/-! ### Entry conventions -/

/-- `getArg`. -/
def getArg (i : Nat) : Gen Val := do
  let fn ← ask (·.curFn)
  let fn ← deref fn "no current function"
  let ty ← deref fn.fnTy[i]? "argument index out of range"
  pure (.arg i ty)

/-- `setupStdEntry`: the register state. Machine registers are the first
arguments, the others have no value. -/
def setupRegs : List CMRegId → Nat → CodegenM Unit
  | [], _ => return ()
  | r :: regs, hwIx => do
      if (← get).target.isMachineReg r then
        let arg ← liftM (getArg hwIx)
        modify fun c => { c with regState := c.regState.set r (some arg) }
        setupRegs regs (hwIx + 1)
      else
        modify fun c => { c with regState := c.regState.set r none }
        setupRegs regs hwIx

/-- Bind parameters to the values from index `i` on. -/
def bindParams (val : Nat → Gen Val) : List Param → Nat → CodegenM Unit
  | [], _ => return ()
  | p :: ps, i => do
      let v ← liftM (val i)
      bindParam p v
      bindParams val ps (i + 1)

/-- `setBasePtr`, `clearBasePtr`. -/
def setBasePtr (v : Option Val) : CodegenM Unit :=
  modify fun c => { c with regState := { c.regState with basePtr := v } }

/-- `setupStdEntry`: the index of the argument that holds the base address of
the cluster, which is the first parameter of a standard function and the
third non-special argument otherwise. -/
def stdBaseIx (t : TargetInfo) (kind : Tagged FragKind) : Nat :=
  if kind = .con .STD_FUN then t.numMachineRegs else t.numMachineRegs + 2

/-- `setupStdEntry`: the base pointer. It is cleared in the build with assertions only, which is
the one that fails where the model does. -/
def setupBasePtr (frag : Frag .cpp) : CodegenM Unit := do
  let c ← get
  if c.target.usesBasePtr && needsBasePtr c then
    let arg ← liftM (getArg (stdBaseIx c.target frag.kind))
    -- get base address of cluster and cast to the native int type
    let basePtr ← liftM (createPtrToInt arg)
    setBasePtr (some basePtr)
  else setBasePtr none

/-- `setupStdEntry`. -/
def setupStdEntry (frag : Frag .cpp) : CodegenM Unit := do
  let info ← liftM (getArgInfo frag.kind)
  -- initialize the register state
  setupRegs CMRegId.all 0
  -- initialize the base pointer (if necessary)
  setupBasePtr frag
  bindParams getArg frag.params (info.nExtra + info.nUnused)

/-- `phiNodes[i]`. -/
def phiAt (phis : List (Nat × IR.Ty)) (i : Nat) : Gen Val := do
  let (id, ty) ← deref phis[i]? "phi index out of range"
  pure (.inst id ty)

/-- `setupFragEntry`: the register state. -/
def setupPhiRegs (phis : List (Nat × IR.Ty)) : List CMRegId → Nat → CodegenM Unit
  | [], _ => return ()
  | r :: regs, i => do
      let v ← liftM (phiAt phis i)
      modify fun c => { c with regState := c.regState.set r (some v) }
      setupPhiRegs phis regs (i + 1)

/-- `setupFragEntry`: the base pointer, if one is used. -/
def setupPhiBase (phis : List (Nat × IR.Ty)) (info : ArgInfo) : CodegenM Unit :=
  if info.basePtr ≠ 0 then do
    let basePtr ← liftM (phiAt phis info.nExtra)
    setBasePtr (some basePtr)
  else return ()

/-- `setupFragEntry`. -/
def setupFragEntry (frag : Frag .cpp) (phis : List (Nat × IR.Ty)) : CodegenM Unit := do
  liftM (assert (frag.kind = .con .INTERNAL) "not an internal fragment")
  let info ← liftM (getArgInfo frag.kind)
  -- initialize the register state
  setupPhiRegs phis (← get).target.machineRegs 0
  setupPhiBase phis info
  -- bind the formal parameters to the remaining phi nodes
  bindParams (phiAt phis) frag.params (info.nExtra + info.basePtr)

/-! ### Code generation -/

/-- `beginFrag` and the start of the fragment's block. -/
def beginFrag (bb : BBId) : CodegenM Unit :=
  modify fun c => { c with vMap := fun _ => none, curBB := bb }

/-- `frag::codegen` for the fragment with number `i`. -/
def codegenFrag (i : Nat) (frag : FragBB) (isEntry : Bool) : CodegenM Unit := do
  beginFrag frag.bb
  if isEntry then setupStdEntry frag.frag else setupFragEntry frag.frag frag.phiNodes
  -- generate code for the fragment
  frag.frag.body.codegen i []

/-- `beginCluster`. -/
def beginCluster (cf : ClusterFn) : CodegenM Unit :=
  modify fun c =>
    { c with
      body := ⟨[], [], [], []⟩
      nextId := 0
      nextBB := 0
      overflowBB := none
      overflowPhiNodes := []
      fragMap := fun _ => none
      curFn := some cf.fn
      curCluster := some cf.cluster }

/-- Initialize the fragments from number `i` on. -/
def initFrags : List (Frag .cpp) → Nat → CodegenM (List FragBB)
  | [], _ => return []
  | frag :: frags, i => do
      let fragBB ← initFrag i frag
      let fragBBs ← initFrags frags (i + 1)
      return fragBB :: fragBBs

/-- Generate code for the fragments from number `i` on, of which the first
may be the entry. -/
def codegenFrags : List FragBB → Nat → CodegenM Unit
  | [], _ => return ()
  | frag :: frags, i => do
      codegenFrag i frag (i == 0)
      codegenFrags frags (i + 1)

/-- `cluster::codegen`. -/
def codegenCluster (cf : ClusterFn) : CodegenM Unit := do
  beginCluster cf
  let frags ← initFrags cf.cluster.frags 0
  codegenFrags frags 0

/-- Initialize the clusters of a compilation unit. -/
def initClusters : List (Cluster .cpp) → CodegenM (List ClusterFn)
  | [] => return []
  | cluster :: clusters => do
      let cf ← initCluster cluster
      let cfs ← initClusters clusters
      return cf :: cfs

/-- Generate code for the clusters of a compilation unit: the functions of
the module with their names. -/
def codegenClusters : List ClusterFn → CodegenM (List (LVar × Body))
  | [] => return []
  | cf :: cfs => do
      codegenCluster cf
      let body := (← get).body
      let fns ← codegenClusters cfs
      return (cf.fn.name, body) :: fns

/-- The `Intrinsic` objects that `beginModule` resets, in its order. -/
def resetIntrinsics : List CachedIntrinsic :=
  [.sadd32WO, .ssub32WO, .smul32WO, .sadd64WO, .ssub64WO, .smul64WO,
    .ctlz32, .ctpop32, .cttz32, .ctlz64, .ctpop64, .cttz64,
    .fshl32, .fshr32, .fshl64, .fshr64,
    .fma32, .fabs32, .sqrt32, .copysign32, .fma64, .fabs64, .sqrt64, .copysign64]

/-- What `beginModule` does to the caches: the alias map is cleared, the intrinsics of the list
are reset, and `_readReg` is `nullptr` again. What is not reset is one module older then. The
module is a new one with nothing in it. -/
def Memo.begin (m : Memo) : Memo where
  cache
    | .label _ => none
    | .intrinsic f =>
        if f ∈ resetIntrinsics then none else (m.cache (.intrinsic f)).map fun age => age + 1
    | .readReg => none
  made := []
  used := []

/-- `beginModule`: the caches and the map of the clusters. The insertion point, the variables,
the registers and what belongs to a cluster stay as they are. -/
def beginModule : CodegenM Unit :=
  modify fun c => { c with memo := c.memo.begin, clusterMap := fun _ => none }

/-- `comp_unit::codegen`. -/
def codegenCompUnit (unit : CompUnit .cpp) : CodegenM (List (LVar × Body)) := do
  beginModule
  let cfs ← initClusters (unit.entry :: unit.fns)
  codegenClusters cfs

/-- The context for a target before a module is begun. -/
def Context.create (target : TargetInfo) : Context where
  target := target
  body := ⟨[], [], [], []⟩
  nextId := 0
  nextBB := 0
  curBB := .new 0
  curFn := none
  curCluster := none
  clusterMap := fun _ => none
  fragMap := fun _ => none
  vMap := fun _ => none
  overflowBB := none
  overflowPhiNodes := []
  regState := ⟨fun _ => none, none⟩
  memo := ⟨fun _ => none, [], []⟩

end Codegen

end SmlnjCfg
