import Mathlib.Data.List.Basic

/-!
# `SmlnjCfg.IR.Syntax`: a subset of the LLVM intermediate representation

Types, operands and instructions, generic in the names `β` of basic blocks
and `γ` of global symbols. An operand carries its type, as an
`llvm::Value` does. An instruction that returns a structure (an arithmetic
operation with an overflow bit, a call) is referred to by its number only,
in `extract`. Names are left out, and so are branch weights in execution and
the other metadata and flags that have no influence on it. The one piece of
metadata that has, `!invariant.load`, makes a load an instruction of its own.
-/

set_option autoImplicit false

namespace SmlnjCfg.IR

/-- Scalar types. Pointers are opaque and have 64 bits. -/
inductive Ty where
  | int (bits : Nat)
  | float
  | double
  | ptr
  deriving DecidableEq, Repr

namespace Ty

/-- The size of a value in bytes. -/
def bytes : Ty → Nat
  | .int bits => bits / 8
  | .float => 4
  | .double => 8
  | .ptr => 8

/-- The size of a value in bits. -/
def bits : Ty → Nat
  | .int bits => bits
  | .float => 32
  | .double => 64
  | .ptr => 64

/-- `isPointerTy`. -/
def isPointerTy (t : Ty) : Bool := t == .ptr

/-- `isIntegerTy`. -/
def isIntegerTy : Ty → Bool
  | .int _ => true
  | _ => false

end Ty

/-- Operands: the result of an instruction or a phi node, an argument of the
function, an integer constant, a global symbol, or an undefined value. -/
inductive Value (γ : Type) where
  | inst (id : Nat) (ty : Ty)
  | arg (i : Nat) (ty : Ty)
  | const (bits c : Nat)
  | global (s : γ) (ty : Ty)
  | undef (ty : Ty)
  deriving DecidableEq, Repr

namespace Value

variable {γ : Type}

/-- `getType`. -/
def getType : Value γ → Ty
  | .inst _ ty => ty
  | .arg _ ty => ty
  | .const bits _ => .int bits
  | .global _ ty => ty
  | .undef ty => ty

end Value

/-- Integer binary operations. -/
inductive BinOp where
  | add | sub | mul | sdiv | srem | udiv | urem | shl | ashr | lshr | or | xor | and
  deriving DecidableEq, Repr

/-- Floating-point binary operations. -/
inductive FBinOp where
  | fadd | fsub | fmul | fdiv | frem
  deriving DecidableEq, Repr

/-- The intrinsics that return a structure of a result and an overflow bit. -/
inductive OverflowOp where
  | sadd | ssub | smul
  deriving DecidableEq, Repr

/-- The intrinsics with a scalar result. -/
inductive Intrinsic where
  | ctpop | ctlz | cttz | fshl | fshr | fma | fabs | sqrt | copysign
  deriving DecidableEq, Repr

/-- Conversions. -/
inductive CastOp where
  | intToPtr | ptrToInt | bitCast | trunc | sext | zext | siToFP | fpToSI
  deriving DecidableEq, Repr

/-- Integer predicates. -/
inductive ICmpPred where
  | eq | ne | sgt | sge | slt | sle | ugt | uge | ult | ule
  deriving DecidableEq, Repr

/-- Floating-point predicates: ordered, unordered, and the two tests. -/
inductive FCmpPred where
  | oeq | ogt | oge | olt | ole | one | ord | ueq | ugt | uge | ult | ule | une
  deriving DecidableEq, Repr

/-- The instructions execution goes on after. -/
inductive Op (γ : Type) where
  | bin (op : BinOp) (a b : Value γ)
  | fbin (op : FBinOp) (a b : Value γ)
  | fneg (a : Value γ)
  | intrinsic (f : Intrinsic) (bits : Nat) (args : List (Value γ))
  | overflow (op : OverflowOp) (bits : Nat) (a b : Value γ)
  | extract (agg i : Nat)
  | cast (op : CastOp) (v : Value γ) (ty : Ty)
  | icmp (pred : ICmpPred) (a b : Value γ)
  | fcmp (pred : FCmpPred) (a b : Value γ)
  | gep (elem : Ty) (base idx : Value γ)
  | load (ty : Ty) (adr : Value γ) (align : Nat)
  /-- A load with the metadata `!invariant.load`: memory that it reads never changes. -/
  | loadInvariant (ty : Ty) (adr : Value γ) (align : Nat)
  | store (v adr : Value γ) (align : Nat)
  | readSP
  | call (fn : Value γ) (args : List (Value γ))
  deriving DecidableEq, Repr

/-- Terminators. The weight of a conditional branch is the probability of
the first target in thousandths. -/
inductive Terminator (β γ : Type) where
  | br (target : β)
  | condBr (cond : Value γ) (ifTrue ifFalse : β) (weight : Option Int)
  | switch (v : Value γ) (dflt : β) (cases : List (Nat × β))
  | unreachable
  | retVoid
  deriving DecidableEq, Repr

/-- What a basic block consists of. A call that does not come back, as a
tail call or as the call of the code that raises an exception, stands
before the return that ends its block. -/
inductive Inst (β γ : Type) where
  | op (id : Nat) (op : Op γ)
  | exitCall (isTail : Bool) (fn : Value γ) (args : List (Value γ))
  | term (t : Terminator β γ)
  deriving DecidableEq, Repr

variable {β γ : Type}

/-- A function under construction, as a log: every instruction with its
block in the order in which they were added, and so for the phi nodes
(block, number, type) and their incoming values (phi, value, predecessor). -/
structure Body (β γ : Type) where
  blocks : List β
  insts : List (β × Inst β γ)
  phis : List (β × Nat × Ty)
  incoming : List (Nat × Value γ × β)

namespace Body

variable [DecidableEq β]

/-- The content of a block. -/
def block (F : Body β γ) (b : β) : List (Inst β γ) :=
  F.insts.filterMap fun p => if p.1 = b then some p.2 else none

/-- The phi nodes of a block. -/
def phisOf (F : Body β γ) (b : β) : List (Nat × Ty) :=
  F.phis.filterMap fun p => if p.1 = b then some p.2 else none

/-- The value that comes into a phi node from a predecessor. -/
def incomingOf (F : Body β γ) (phi : Nat) (pred : β) : Option (Value γ) :=
  (F.incoming.find? fun p => p.1 = phi ∧ p.2.2 = pred).map fun p => p.2.1

end Body

end SmlnjCfg.IR
