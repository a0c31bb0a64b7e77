import Mathlib.Logic.Relation
import Mathlib.Logic.Function.Basic
import SmlnjCfg.Lib.Memory
import SmlnjCfg.IR.Syntax

/-!
# `SmlnjCfg.IR.Exec`: execution of the intermediate representation

Registers hold 64-bit words; a value of a narrower type is kept zero
extended. The result of an instruction that returns a structure is the list
of its components. Operations that are undefined in LLVM, such as a division
by zero, have no result here. What the code does not define itself is a
`Host`: the addresses of symbols, the stack pointer, the floating-point
operations, the functions that are called and return, and the part of the
memory that is promised not to change.

An invariant load is undefined in LLVM unless the memory that it reads holds
the same value at all points of the execution. So it is defined here for
memory of the promise only, and a function has no step that stores there.

* `Op.step`: what one instruction does.
* `Op.run`: an instruction that breaks no promise.
* `next`: one step of a function, inside a block or along an edge.
* `Reaches`: any number of steps.
-/

set_option autoImplicit false

namespace SmlnjCfg.IR

/-- A store: the address, the number of bytes and the number stored. -/
structure Write where
  adr : Nat
  size : Nat
  val : Nat
  deriving DecidableEq, Repr

/-- The state of a running function. -/
structure State where
  /-- The results of instructions and phi nodes. -/
  regs : Nat → List Word
  mem : Mem
  /-- All stores so far. -/
  trace : List Write

/-- What the code relies on. -/
structure Host (γ : Type) where
  addr : γ → Word
  /-- The stack pointer. -/
  sp : Word
  fbin : FBinOp → Ty → Word → Word → Word
  fneg : Ty → Word → Word
  /-- The floating-point intrinsics. -/
  fintrinsic : Intrinsic → Nat → List Word → Word
  fcmp : FCmpPred → Ty → Word → Word → Bool
  siToFP : Nat → Ty → Word → Word
  fpToSI : Ty → Nat → Word → Option Word
  /-- A called function, by its address: results and memory. -/
  call : Word → List Word → Mem → List Word × Mem
  /-- The bytes that are promised to stay the same, which invariant loads may read. -/
  fixed : Nat → Bool
  call_fixed : ∀ f ws mem a, fixed a = true → (call f ws mem).2 a = mem a

/-- A host for code that uses no floating-point numbers and calls no functions, and that is
promised nothing about its memory. The witnesses of this development run on it, or on it
with the one component that they need. -/
def Host.plain {γ : Type} : Host γ where
  addr _ := 0
  sp := 0
  fbin _ _ x _ := x
  fneg _ x := x
  fintrinsic _ _ _ := 0
  fcmp _ _ _ _ := false
  siToFP _ _ x := x
  fpToSI _ _ x := some x
  call _ _ m := ([], m)
  fixed _ := false
  call_fixed := nofun

/-- An activation of a function: the host and the arguments, of which some
may be undefined. -/
structure Activation (γ : Type) where
  host : Host γ
  args : List (Option Word)

variable {β γ : Type}

/-- The value of an operand. -/
def Value.eval (act : Activation γ) (regs : Nat → List Word) : Value γ → Option Word
  | .inst id _ => (regs id).head?
  | .arg i _ => act.args[i]?.join
  | .const bits c => some ((BitVec.ofNat bits c).setWidth 64)
  | .global s _ => some (act.host.addr s)
  | .undef _ => none

/-! ### Operations on words -/

/-- An integer operation of a given width. -/
def BinOp.evalBits {n : Nat} (op : BinOp) (a b : BitVec n) : Option (BitVec n) :=
  match op with
  | .add => some (a + b)
  | .sub => some (a - b)
  | .mul => some (a * b)
  | .sdiv => if b = 0 ∨ BitVec.sdivOverflow a b then none else some (a.sdiv b)
  | .srem => if b = 0 ∨ BitVec.sdivOverflow a b then none else some (a.srem b)
  | .udiv => if b = 0 then none else some (a / b)
  | .urem => if b = 0 then none else some (a % b)
  | .shl => if b.toNat < n then some (a <<< b.toNat) else none
  | .ashr => if b.toNat < n then some (a.sshiftRight b.toNat) else none
  | .lshr => if b.toNat < n then some (a >>> b.toNat) else none
  | .or => some (a ||| b)
  | .xor => some (a ^^^ b)
  | .and => some (a &&& b)

/-- An integer operation on the low `n` bits of two words. -/
def BinOp.eval (n : Nat) (op : BinOp) (a b : Word) : Option Word :=
  (op.evalBits (a.setWidth n) (b.setWidth n)).map (·.setWidth 64)

/-- A comparison of bit vectors. -/
def ICmpPred.evalBits {n : Nat} (pred : ICmpPred) (a b : BitVec n) : Bool :=
  match pred with
  | .eq => a == b
  | .ne => a != b
  | .sgt => b.slt a
  | .sge => b.sle a
  | .slt => a.slt b
  | .sle => a.sle b
  | .ugt => b.ult a
  | .uge => b.ule a
  | .ult => a.ult b
  | .ule => a.ule b

/-- A comparison of the low `n` bits of two words. -/
def ICmpPred.eval (n : Nat) (pred : ICmpPred) (a b : Word) : Bool :=
  pred.evalBits (a.setWidth n) (b.setWidth n)

/-- An operation that reports overflow. -/
def OverflowOp.evalBits {n : Nat} (op : OverflowOp) (a b : BitVec n) : BitVec n × Bool :=
  match op with
  | .sadd => (a + b, BitVec.saddOverflow a b)
  | .ssub => (a - b, BitVec.ssubOverflow a b)
  | .smul => (a * b, BitVec.smulOverflow a b)

/-- The result and the overflow bit for the low `n` bits of two words. -/
def OverflowOp.eval (n : Nat) (op : OverflowOp) (a b : Word) : Word × Bool :=
  let (r, o) := op.evalBits (a.setWidth n) (b.setWidth n)
  (r.setWidth 64, o)

/-- An intrinsic with a scalar result. -/
def Intrinsic.eval (host : Host γ) (f : Intrinsic) (n : Nat) (args : List Word) : Option Word :=
  match f, args with
  | .ctpop, [a] => some ((a.setWidth n).cpop.setWidth 64)
  | .ctlz, [a] => some ((a.setWidth n).clz.setWidth 64)
  | .cttz, [a] => some ((a.setWidth n).ctz.setWidth 64)
  | .fshl, [a, b, c] =>
      some (((a.setWidth n <<< (c.toNat % n)) ||| (b.setWidth n >>> (n - c.toNat % n))).setWidth 64)
  | .fshr, [a, b, c] =>
      some (((a.setWidth n <<< (n - c.toNat % n)) ||| (b.setWidth n >>> (c.toNat % n))).setWidth 64)
  | .fma, [_, _, _] => some (host.fintrinsic f n args)
  | .fabs, [_] => some (host.fintrinsic f n args)
  | .sqrt, [_] => some (host.fintrinsic f n args)
  | .copysign, [_, _] => some (host.fintrinsic f n args)
  | _, _ => none

/-- A conversion between types. -/
def CastOp.eval (host : Host γ) (op : CastOp) (src dst : Ty) (a : Word) : Option Word :=
  match op with
  | .intToPtr => some a
  | .ptrToInt => some ((a.setWidth dst.bits).setWidth 64)
  | .bitCast => some a
  | .trunc => some ((a.setWidth dst.bits).setWidth 64)
  | .sext => some (((a.setWidth src.bits).signExtend dst.bits).setWidth 64)
  | .zext => some ((a.setWidth src.bits).setWidth 64)
  | .siToFP => some (host.siToFP src.bits dst a)
  | .fpToSI => host.fpToSI src dst.bits a

/-- The address of an element: the index is signed. -/
def gepEval (elem : Ty) (idxBits : Nat) (base idx : Word) : Word :=
  base + (idx.setWidth idxBits).signExtend 64 * BitVec.ofNat 64 elem.bytes

/-! ### Instructions -/

namespace State

/-- Record the result of an instruction. -/
def setReg (s : State) (id : Nat) (ws : List Word) : State :=
  { s with regs := Function.update s.regs id ws }

/-- Store the low `size` bytes of a word. -/
def store (s : State) (adr : Word) (size : Nat) (w : Word) : State :=
  { s with
    mem := s.mem.write adr.toNat size w.toNat
    trace := s.trace ++ [⟨adr.toNat, size, w.toNat⟩] }

/-- Load a value of a number of bytes. -/
def load (s : State) (adr : Word) (size : Nat) : Word :=
  BitVec.ofNat 64 (s.mem.read adr.toNat size)

end State

/-- Stores that spare a set of addresses. -/
def keeps (p : Nat → Bool) (ws : List Write) : Bool := ws.all fun w => Mem.spares p w.adr w.size

/-- Execute an instruction. -/
def Op.step (act : Activation γ) (id : Nat) (s : State) : Op γ → Option State
  | .bin op a b => do
      let x ← a.eval act s.regs
      let y ← b.eval act s.regs
      let w ← op.eval a.getType.bits x y
      some (s.setReg id [w])
  | .fbin op a b => do
      let x ← a.eval act s.regs
      let y ← b.eval act s.regs
      some (s.setReg id [act.host.fbin op a.getType x y])
  | .fneg a => do
      let x ← a.eval act s.regs
      some (s.setReg id [act.host.fneg a.getType x])
  | .intrinsic f bits args => do
      let xs ← args.mapM (·.eval act s.regs)
      let w ← f.eval act.host bits xs
      some (s.setReg id [w])
  | .overflow op bits a b => do
      let x ← a.eval act s.regs
      let y ← b.eval act s.regs
      let (w, o) := op.eval bits x y
      some (s.setReg id [w, BitVec.ofNat 64 o.toNat])
  | .extract agg i => do
      let w ← (s.regs agg)[i]?
      some (s.setReg id [w])
  | .cast op v ty => do
      let x ← v.eval act s.regs
      let w ← op.eval act.host v.getType ty x
      some (s.setReg id [w])
  | .icmp pred a b => do
      let x ← a.eval act s.regs
      let y ← b.eval act s.regs
      some (s.setReg id [BitVec.ofNat 64 (pred.eval a.getType.bits x y).toNat])
  | .fcmp pred a b => do
      let x ← a.eval act s.regs
      let y ← b.eval act s.regs
      some (s.setReg id [BitVec.ofNat 64 (act.host.fcmp pred a.getType x y).toNat])
  | .gep elem base idx => do
      let x ← base.eval act s.regs
      let i ← idx.eval act s.regs
      some (s.setReg id [gepEval elem idx.getType.bits x i])
  | .load ty adr _ => do
      let x ← adr.eval act s.regs
      some (s.setReg id [s.load x ty.bytes])
  | .loadInvariant ty adr _ => do
      let x ← adr.eval act s.regs
      if Mem.within act.host.fixed x.toNat ty.bytes then some (s.setReg id [s.load x ty.bytes])
      else none
  | .store v adr _ => do
      let w ← v.eval act s.regs
      let x ← adr.eval act s.regs
      some (s.store x v.getType.bytes w)
  | .readSP => some (s.setReg id [act.host.sp])
  | .call fn args => do
      let f ← fn.eval act s.regs
      let xs ← args.mapM (·.eval act s.regs)
      let (ws, mem) := act.host.call f xs s.mem
      some ({ s with mem := mem }.setReg id ws)

/-- Execute an instruction of a function, which must not store to memory that is promised
to stay the same. The stores of the instruction are those that are new in the trace. -/
def Op.run (act : Activation γ) (id : Nat) (s : State) (o : Op γ) : Option State :=
  (o.step act id s).filter fun s' => keeps act.host.fixed (s'.trace.drop s.trace.length)

/-! ### Blocks and functions -/

/-- How control leaves a block. -/
inductive Exit (β : Type) where
  | goto (target : β)
  | call (isTail : Bool) (fn : Word) (args : List (Option Word))
  | unreachable
  | ret
  deriving DecidableEq

/-- Where a terminator leads. -/
def Terminator.exit (act : Activation γ) (regs : Nat → List Word) :
    Terminator β γ → Option (Exit β)
  | .br target => some (.goto target)
  | .condBr cond ifTrue ifFalse _ => do
      let c ← cond.eval act regs
      some (.goto (if c = 0 then ifFalse else ifTrue))
  | .switch v dflt cases => do
      let w ← v.eval act regs
      some (.goto (((cases.find? fun p => p.1 = w.toNat).map Prod.snd).getD dflt))
  | .unreachable => some .unreachable
  | .retVoid => some .ret

/-- A running function: the current block and what is left of it. -/
structure Config (β γ : Type) where
  blk : β
  rest : List (Inst β γ)
  st : State

variable [DecidableEq β]

/-- Enter a block from a predecessor: all phi nodes take their values at once. -/
def enter (act : Activation γ) (F : Body β γ) (pred b : β) (s : State) : Option State := do
  let ws ← (F.phisOf b).mapM fun p => (F.incomingOf p.1 pred).bind (·.eval act s.regs)
  some { s with regs := fun id =>
    match ((F.phisOf b).zip ws).find? fun p => p.1.1 = id with
    | some p => [p.2]
    | none => s.regs id }

/-- One step of a function that goes on. -/
def next (act : Activation γ) (F : Body β γ) (c : Config β γ) : Option (Config β γ) :=
  match c.rest with
  | .op id o :: rest => (o.run act id c.st).map fun s => ⟨c.blk, rest, s⟩
  | .term t :: _ =>
      match t.exit act c.st.regs with
      | some (.goto b) => (enter act F c.blk b c.st).map fun s => ⟨b, F.block b, s⟩
      | _ => none
  | _ => none

/-- How a function ends that does not go on. -/
def final (act : Activation γ) (c : Config β γ) : Option (Exit β) :=
  match c.rest with
  | .exitCall isTail fn args :: _ => do
      let f ← fn.eval act c.st.regs
      some (.call isTail f (args.map (·.eval act c.st.regs)))
  | .term .unreachable :: _ => some .unreachable
  | .term .retVoid :: _ => some .ret
  | _ => none

/-- Any number of steps. -/
def Reaches (act : Activation γ) (F : Body β γ) : Config β γ → Config β γ → Prop :=
  Relation.ReflTransGen fun c c' => next act F c = some c'

end SmlnjCfg.IR
