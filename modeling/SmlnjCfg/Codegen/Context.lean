import Mathlib.Tactic.SplitIfs
import SmlnjCfg.Cfg.Syntax
import SmlnjCfg.IR.Syntax
import SmlnjCfg.Target.Info

/-!
# `SmlnjCfg.Codegen.Context`: the state of code generation

`Context` is the class of `context.hpp`, with the fields the `codegen`
methods read and write. Code generation for a cluster is a computation in
`CodegenM`; a failed assertion is an error. The parts that only append
instructions to the current block are written in `Gen`, whose computations
are programs over five effects: a failed assertion, a read of the context, a
new instruction, a new value for a register that has one, and a use of something
that a module has only once. `Gen.run` performs them.

The functions of intrinsics and the aliases of labels are made when they are
first used and cached in the context from then on. An instruction names what it
calls and an operand names its label, so what is left to say of the caches is
which module the function or the alias belongs to, and this is `Memo`.

What is left out: names of values and blocks, metadata other than
`!invariant.load`, and the constant folding of the IR builder.
-/

set_option autoImplicit false

namespace SmlnjCfg.Codegen

open Cfg

/-- The basic blocks of a function: the block of a statement, which is given
by the number of its fragment and the arms that lead to it (innermost first),
and the blocks made during code generation. -/
inductive BBId where
  | stm (frag : Nat) (path : List Nat)
  | new (n : Nat)
  deriving DecidableEq, Repr

/-- Global symbols: the function of a cluster, the alias of its label, and
the difference of two functions. -/
inductive Sym where
  | fn (lab : LVar)
  | alias (lab : LVar)
  | labelDiff (f1 f2 : LVar)
  deriving DecidableEq

/-- `llvm::Value *`. -/
abbrev Val := IR.Value Sym

/-- The content of a function. -/
abbrev Body := IR.Body BBId Sym

/-- `mlValueTy`, `ptrTy`. -/
abbrev ptrTy : IR.Ty := .ptr

/-- `intTy`. -/
abbrev intTy : IR.Ty := .int 64

/-- `i8Ty`. -/
abbrev i8Ty : IR.Ty := .int 8

/-- `i32Ty`. -/
abbrev i32Ty : IR.Ty := .int 32

/-- The width of the integer type of a bit size. -/
def iBits (sz : Int) : Nat :=
  if sz = 64 then 64 else if sz = 32 then 32 else if sz = 16 then 16 else 8

/-- `iType`. -/
def iType (sz : Int) : IR.Ty := .int (iBits sz)

/-- `fType`. -/
def fType (sz : Int) : IR.Ty := if sz = 64 then .double else .float

theorem iBits_cases (sz : Int) : iBits sz = 64 ∨ iBits sz = 32 ∨ iBits sz = 16 ∨ iBits sz = 8 := by
  unfold iBits
  split_ifs <;> simp

theorem fType_cases (sz : Int) : fType sz = .double ∨ fType sz = .float := by
  unfold fType
  split_ifs <;> simp

/-- `ty::codegen`. -/
def genTy : Ty → IR.Ty
  | .LABt => ptrTy
  | .PTRt => ptrTy
  | .TAGt => intTy
  | .NUMt sz => iType sz
  | .FLTt sz => fType sz

/-- `isFLTt`. -/
def isFLTt : Ty → Bool
  | .FLTt _ => true
  | _ => false

/-- `CMRegState`: the values of the machine registers and the base pointer;
`none` is `nullptr`. -/
structure CMRegState where
  val : CMRegId → Option Val
  basePtr : Option Val

namespace CMRegState

/-- `set`. -/
def set (rs : CMRegState) (r : CMRegId) (v : Option Val) : CMRegState :=
  { rs with val := fun r' => if r' = r then v else rs.val r' }

/-- `copyFrom`: the base pointer is not copied. -/
def copyFrom (rs cache : CMRegState) : CMRegState := { rs with val := cache.val }

@[simp] theorem set_val_self (rs : CMRegState) (r : CMRegId) (v : Option Val) :
    (rs.set r v).val r = v := if_pos rfl

theorem set_val_of_ne (rs : CMRegState) {r r' : CMRegId} (v : Option Val) (h : r' ≠ r) :
    (rs.set r v).val r' = rs.val r' := if_neg h

end CMRegState

/-! ### What is made once for each module -/

/-- The `Intrinsic` objects of the context, under the names of the source. -/
inductive CachedIntrinsic where
  | sadd32WO | ssub32WO | smul32WO | sadd64WO | ssub64WO | smul64WO
  | ctlz32 | ctpop32 | cttz32 | ctlz64 | ctpop64 | cttz64
  | fshl32 | fshr32 | fshl64 | fshr64
  | fma32 | fabs32 | sqrt32 | copysign32 | fma64 | fabs64 | sqrt64 | copysign64
  deriving DecidableEq, Repr

/-- What a context makes once for each module: the alias of a label, the function of an
intrinsic, and `@llvm.read_register`. The last is `_readReg`. The metadata `_spRegMD` is set
and reset at the same places, so one key stands for both. -/
inductive MemoKey where
  | label (lab : LVar)
  | intrinsic (f : CachedIntrinsic)
  | readReg
  deriving DecidableEq, Repr

/-- The cache that the function of an instruction is taken from. The operators have one object
for 32 bits and use the one for 64 bits for every other size. -/
def MemoKey.ofOp : IR.Op Sym → Option MemoKey
  | .overflow .sadd bits _ _ => some (.intrinsic (if bits = 32 then .sadd32WO else .sadd64WO))
  | .overflow .ssub bits _ _ => some (.intrinsic (if bits = 32 then .ssub32WO else .ssub64WO))
  | .overflow .smul bits _ _ => some (.intrinsic (if bits = 32 then .smul32WO else .smul64WO))
  | .intrinsic .ctpop bits _ => some (.intrinsic (if bits = 32 then .ctpop32 else .ctpop64))
  | .intrinsic .ctlz bits _ => some (.intrinsic (if bits = 32 then .ctlz32 else .ctlz64))
  | .intrinsic .cttz bits _ => some (.intrinsic (if bits = 32 then .cttz32 else .cttz64))
  | .intrinsic .fshl bits _ => some (.intrinsic (if bits = 32 then .fshl32 else .fshl64))
  | .intrinsic .fshr bits _ => some (.intrinsic (if bits = 32 then .fshr32 else .fshr64))
  | .intrinsic .fma bits _ => some (.intrinsic (if bits = 32 then .fma32 else .fma64))
  | .intrinsic .fabs bits _ => some (.intrinsic (if bits = 32 then .fabs32 else .fabs64))
  | .intrinsic .sqrt bits _ => some (.intrinsic (if bits = 32 then .sqrt32 else .sqrt64))
  | .intrinsic .copysign bits _ =>
      some (.intrinsic (if bits = 32 then .copysign32 else .copysign64))
  | .readSP => some .readReg
  | _ => none

/-- The caches `_aliasMap`, `_readReg` and those of the intrinsics, with what the code of the
current module has from them. A pointer in a cache leads into the module that was under
construction when it was made, which `endModule` deletes. So a cache is modelled by the age of
that module, zero for the current one, and the use of an old pointer shows in `used`. -/
structure Memo where
  /-- What is cached, by the age of the module that it was made in. -/
  cache : MemoKey → Option Nat
  /-- What was made in the current module, in this order. -/
  made : List MemoKey
  /-- What the code of the current module uses, with the age of the module that it is in. -/
  used : List (MemoKey × Nat)

/-- `Intrinsic::get`, and the like for aliases and `_readReg`: what is not cached is made in the
current module and cached. -/
def Memo.get (m : Memo) (k : MemoKey) : Memo :=
  match m.cache k with
  | some i => { m with used := m.used ++ [(k, i)] }
  | none =>
      { m with
        cache := fun k' => if k' = k then some 0 else m.cache k'
        made := m.made ++ [k]
        used := m.used ++ [(k, 0)] }

/-- An LLVM function: its name is the label of the entry fragment of the
cluster, and its type the list of its parameter types. -/
structure Fn where
  name : LVar
  fnTy : List IR.Ty

/-- A cluster with its function. -/
structure ClusterFn where
  cluster : Cluster .cpp
  fn : Fn

/-- A fragment with what initialization adds to it. -/
structure FragBB where
  frag : Frag .cpp
  bb : BBId
  phiNodes : List (Nat × IR.Ty)

/-- `Context`. -/
structure Context where
  target : TargetInfo
  /-- The function under construction. -/
  body : Body
  /-- The number of the next instruction or phi node. -/
  nextId : Nat
  /-- The number of the next block that is not the block of a statement. -/
  nextBB : Nat
  /-- The insertion point: code goes to the end of this block. -/
  curBB : BBId
  curFn : Option Fn
  curCluster : Option (Cluster .cpp)
  clusterMap : LVar → Option ClusterFn
  fragMap : LVar → Option FragBB
  vMap : LVar → Option Val
  overflowBB : Option BBId
  overflowPhiNodes : List Nat
  regState : CMRegState
  memo : Memo

namespace Context

/-- Add an instruction at the insertion point. -/
def append (c : Context) (i : IR.Inst BBId Sym) : Context :=
  { c with body := { c.body with insts := c.body.insts ++ [(c.curBB, i)] } }

/-- Use what is made once for each module. -/
def use (c : Context) (k : MemoKey) : Context := { c with memo := c.memo.get k }

/-- Add an instruction with a number of its own. If it calls an intrinsic, the function comes
from a cache. -/
def emitOp (c : Context) (o : IR.Op Sym) : Context :=
  { c.append (.op c.nextId o) with
    nextId := c.nextId + 1
    memo := ((MemoKey.ofOp o).map c.memo.get).getD c.memo }

/-- Change the value of a register that has one. -/
def setReg (c : Context) (r : CMRegId) (v : Val) : Context :=
  { c with regState := c.regState.set r ((c.regState.val r).map fun _ => v) }

end Context

/-! ### Straight-line code generation -/

/-- Computations that generate code at the insertion point. -/
inductive Gen (α : Type) where
  | ret (a : α)
  /-- A failed assertion. -/
  | fail (msg : String)
  | read (k : Context → Gen α)
  /-- A new instruction; the continuation gets its number. -/
  | emit (o : IR.Op Sym) (k : Nat → Gen α)
  /-- A new value for a register that has one. -/
  | setReg (r : CMRegId) (v : Val) (k : Gen α)
  /-- A use of what is made once for each module. -/
  | use (key : MemoKey) (k : Gen α)

namespace Gen

variable {α β : Type}

/-- Sequencing. -/
protected def bind : Gen α → (α → Gen β) → Gen β
  | .ret a, f => f a
  | .fail msg, _ => .fail msg
  | .read k, f => .read fun c => (k c).bind f
  | .emit o k, f => .emit o fun id => (k id).bind f
  | .setReg r v k, f => .setReg r v (k.bind f)
  | .use key k, f => .use key (k.bind f)

instance : Monad Gen where
  pure := .ret
  bind := .bind

/-- Perform a computation. -/
def run : Gen α → Context → Except String (α × Context)
  | .ret a, c => .ok (a, c)
  | .fail msg, _ => .error msg
  | .read k, c => (k c).run c
  | .emit o k, c => (k c.nextId).run (c.emitOp o)
  | .setReg r v k, c => k.run (c.setReg r v)
  | .use key k, c => k.run (c.use key)

theorem pure_def (a : α) : (pure a : Gen α) = .ret a := rfl

theorem bind_def (x : Gen α) (f : α → Gen β) : x >>= f = x.bind f := rfl

/-- `assert`. -/
def assert (p : Bool) (msg : String) : Gen Unit := if p then .ret () else .fail msg

/-- Read a component of the context. -/
def ask (f : Context → α) : Gen α := .read fun c => .ret (f c)

/-- Generate an instruction with a result of a type. -/
def inst (o : IR.Op Sym) (ty : IR.Ty) : Gen Val := .emit o fun id => .ret (.inst id ty)

/-- Generate an instruction without a result. -/
def inst_ (o : IR.Op Sym) : Gen Unit := .emit o fun _ => .ret ()

/-- Look up what is made once for each module, and make it if that is not done. -/
def memoize (key : MemoKey) : Gen Unit := .use key (.ret ())

/-- `nullptr` where a value is needed. -/
def deref (v : Option α) (msg : String) : Gen α :=
  match v with
  | some v => .ret v
  | none => .fail msg

end Gen

/-- Code generation. -/
abbrev CodegenM := StateT Context (Except String)

instance : MonadLift Gen CodegenM where
  monadLift g := g.run

end SmlnjCfg.Codegen
