import SmlnjCfg.Codegen.PureArith
import SmlnjCfg.Codegen.Trap

/-!
# `SmlnjCfg.Cfg.Machine`: what CFG programs mean

An abstract machine for the part of the CFG language that works on words: ML
values and native integers. It knows nothing of blocks, phi nodes or values of
the code generator. A special register of the CMachine lives in the machine or
in its stack slot, as the target has it, and every store is recorded.

* `Exp.eval`: the value of an expression.
* `Alloc.eval`, `Setter.eval`, `Branch.eval`: the primitive operations.
* `Stm.eval`, `Stm.step`: one statement, and the promise that it keeps.
* `Config.step`: one step of a program, which runs or has left its cluster.

A state without a step is one that the code generator gives no meaning to, such
as an unbound variable, a division by zero or a native integer that is needed
where the program has an ML value. The load of a `SELECT` is marked as invariant,
so a `SELECT` reads memory that is promised to stay the same, and a statement that
stores to such memory has no step: a field of a record that the program makes can
be read by `DEREF` or `SUBSCRIPT` only. The operations on floating-point numbers
and on narrower integers, `RAW_RECORD`, `SET_HDLR` and `SET_VAR` of a native
integer and `RCC` are not part of the machine.
-/

set_option autoImplicit false

namespace SmlnjCfg

namespace Cfg

/-! ### Values and states -/

/-- A word, which is an ML value or a native integer. The kind is that of the value's LLVM type: a
pointer or an integer. -/
structure MLVal where
  isInt : Bool
  word : Word
  deriving DecidableEq

namespace MLVal

/-- A native integer, which arithmetic gives and which an index has to be. -/
abbrev int (w : Word) : MLVal := ⟨true, w⟩

/-- An ML value: a pointer, or a tagged integer that was loaded as one. -/
abbrev ml (w : Word) : MLVal := ⟨false, w⟩

end MLVal

/-- The values of the variables. A name that is not bound has none. -/
abbrev Env := LVar → Option MLVal

namespace Env

/-- Bind a variable, whether it had a value or not. The generator's own map keeps an old binding,
and the theorems have to say where that makes no difference. -/
def set (ρ : Env) (x : LVar) (v : MLVal) : Env := fun y => if y = x then some v else ρ y

/-- Bind variables to values, from left to right, as far as both lists go. -/
def setAll (ρ : Env) : List LVar → List MLVal → Env
  | x :: xs, v :: vs => (ρ.set x v).setAll xs vs
  | _, _ => ρ

/-- The variable has its new value. -/
@[simp] theorem set_self (ρ : Env) (x : LVar) (v : MLVal) : ρ.set x v x = some v := if_pos rfl

/-- No name, no binding. -/
@[simp] theorem setAll_nil (ρ : Env) (vs : List MLVal) : ρ.setAll [] vs = ρ := by cases vs <;> rfl

/-- The other variables keep their values. -/
theorem set_of_ne (ρ : Env) {x y : LVar} (v : MLVal) (h : y ≠ x) : ρ.set x v y = ρ y := if_neg h

end Env

/-- The registers of the CMachine that live in machine registers, the memory, and
all stores so far. -/
structure MState where
  reg : CMRegId → Word
  mem : Mem
  trace : List IR.Write

/-- What a program runs on: the target, the addresses of its code, the fragments of
the current cluster, and the functions that are called and return. -/
structure Machine where
  target : TargetInfo
  sp : Word
  /-- The value of a label. -/
  label : LVar → Word
  /-- The address that a known cluster is called at. -/
  code : LVar → Word
  /-- The entry fragment of the cluster with a label. -/
  entry : LVar → Option (Frag .cpp)
  frags : List (Frag .cpp)
  call : Word → List Word → Mem → List Word × Mem
  /-- The bytes that are promised to stay the same. -/
  fixed : Nat → Bool

namespace MState

/-- Store a word, and remember the store: the trace is what can be observed of a run. -/
def store (σ : MState) (adr w : Word) : MState :=
  { σ with
    mem := σ.mem.write adr.toNat 8 w.toNat
    trace := σ.trace ++ [⟨adr.toNat, 8, w.toNat⟩] }

/-- Store words in ascending order, one after the other. -/
def storeAll (σ : MState) (adr : Word) : List Word → MState
  | [] => σ
  | w :: ws => (σ.store adr w).storeAll (adr + 8) ws

/-- Load a word, in the byte order of the targets. -/
def load (σ : MState) (adr : Word) : Word := BitVec.ofNat 64 (σ.mem.read adr.toNat 8)

/-- Give new values to registers, from left to right. -/
def setRegs (σ : MState) : List CMRegId → List Word → MState
  | r :: rs, w :: ws => MState.setRegs { σ with reg := Function.update σ.reg r w } rs ws
  | _, _ => σ

/-- No register, no change. -/
@[simp] theorem setRegs_nil (σ : MState) (ws : List Word) : σ.setRegs [] ws = σ := by
  cases ws <;> rfl

/-- A store leaves the registers alone. -/
@[simp] theorem reg_store (σ : MState) (adr w : Word) : (σ.store adr w).reg = σ.reg := rfl

/-- The memory after a store. -/
@[simp] theorem mem_store (σ : MState) (adr w : Word) :
    (σ.store adr w).mem = σ.mem.write adr.toNat 8 w.toNat := rfl

/-- A store is the last one of the trace. -/
@[simp] theorem trace_store (σ : MState) (adr w : Word) :
    (σ.store adr w).trace = σ.trace ++ [⟨adr.toNat, 8, w.toNat⟩] := rfl

end MState

namespace Machine

variable (M : Machine)

/-- A stack slot, by its offset from the stack pointer. -/
def slot (off : Int) : Word := M.sp + BitVec.ofInt 64 off

/-- The value of a special register, from the machine register or from its slot in the stack
frame. -/
def getReg (σ : MState) (r : CMRegId) : Word :=
  if M.target.isMachineReg r then σ.reg r else σ.load (M.slot (M.target.stkOffset r))

/-- A new value for a special register. For one in the stack frame it is a store, and recorded as
one. -/
def setReg (σ : MState) (r : CMRegId) (w : Word) : MState :=
  if M.target.isMachineReg r then { σ with reg := Function.update σ.reg r w }
  else σ.store (M.slot (M.target.stkOffset r)) w

/-- The registers that every transfer of control passes, in the order of their numbers. -/
def machineWords (σ : MState) : List Word := M.target.machineRegs.map σ.reg

end Machine

/-- The parameter types that hold a word. Floats and smaller integers are left out of the
machine. -/
def Ty.isWord : Ty → Bool
  | .LABt => true
  | .PTRt => true
  | .TAGt => true
  | .NUMt sz => sz == 64
  | .FLTt _ => false

/-- The parameter types that hold a native integer, which are integers for LLVM. -/
def Ty.isInt : Ty → Bool
  | .TAGt => true
  | .NUMt _ => true
  | _ => false

/-- The number of unused arguments between the registers and the parameters. -/
def FragKind.unused (kind : FragKind) : Nat := if kind = .STD_CONT then 2 else 0

/-- Arguments in the representation of the parameters: the words stay, and the kinds are the
declared ones. -/
def castAll (tys : List Ty) (vs : List MLVal) : List MLVal :=
  List.zipWith (fun ty v => ⟨ty.isInt, v.word⟩) tys vs

end Cfg

/-! ### Primitive operations -/

namespace CfgPrim

open Cfg Codegen

variable (M : Machine) (σ : MState)

/-- A field that is one native word, the only kind of raw field that the machine reads and
writes. -/
def isWordField (kind : Tagged Numkind) (sz : Int) : Bool := kind = .con .INT ∧ sz = 64

/-- `looker`: operations that read the state. The index of a raw operation has to be a native
integer, since the generator does not coerce it there. -/
def Looker.eval : Looker .cpp → List MLVal → Option MLVal
  | .DEREF, [a] => some (.ml (σ.load a.word))
  | .SUBSCRIPT, [a, i] => some (.ml (σ.load (a.word + i.word * 8)))
  | .RAW_LOAD kind sz, [a, i] =>
      if isWordField kind sz ∧ i.isInt then some (.int (σ.load (a.word + i.word))) else none
  | .RAW_SUBSCRIPT kind sz, [a, i] =>
      if isWordField kind sz ∧ i.isInt then some (.int (σ.load (a.word + i.word * 8))) else none
  | .GET_HDLR, _ => some (.ml (M.getReg σ .EXN_HNDLR))
  | .GET_VAR, _ => some (.ml (M.getReg σ .VAR_PTR))
  | _, _ => none

/-- `pure`: operators that coerce their operands take any word, the others need
native integers. -/
def Pure.eval : Pure .cpp → List MLVal → Option MLVal
  | .PURE_ARITH (.con op) sz, vs =>
      if sz = 64 ∧ (op.binOp.isSome ∨ vs.all (·.isInt)) then
        (op.denote (vs.map (·.word))).map fun r => .int (BitVec.ofInt 64 r)
      else none
  | .EXTEND signed _ toSz, [a] =>
      -- a word is as wide as the result already
      if signed = false ∧ toSz = 64 then some a else none
  | .PURE_SUBSCRIPT, [a, i] => some (.ml (σ.load (a.word + i.word * 8)))
  | .PURE_RAW_SUBSCRIPT kind sz, [a, i] =>
      if isWordField kind sz ∧ i.isInt then some (.int (σ.load (a.word + i.word * 8))) else none
  | .RAW_SELECT kind sz offset, [a] =>
      if isWordField kind sz then some (.int (σ.load (a.word + BitVec.ofInt 64 offset))) else none
  | _, _ => none

/-- A new record at the allocation pointer: the descriptor and the fields. -/
def allocWords (desc : Word) (ws : List Word) : Option (Word × MState) :=
  let p := M.getReg σ .ALLOC_PTR
  if ws.length + 1 < 2 ^ 31 then
    some (p + 8, M.setReg (σ.storeAll p (desc :: ws)) .ALLOC_PTR
      (p + BitVec.ofNat 64 (8 * (ws.length + 1))))
  else none

/-- Uninitialized storage of `len` bytes: the descriptor is one word before an
address with the alignment. -/
def allocRaw (desc : Option Asdl.Integer) (align len : Int) : Option (Word × MState) := do
  let p := M.getReg σ .ALLOC_PTR
  if -2 ^ 31 ≤ len + 8 ∧ len + 8 < 2 ^ 31 then
    match desc with
    | some desc => do
        let d ← desc.toUInt64
        let p := if align > 8 then p ||| BitVec.ofInt 64 (align - 8) else p
        some (p + 8, M.setReg (σ.store p d) .ALLOC_PTR (p + BitVec.ofInt 64 (len + 8)))
    | none =>
        if align = 8 then
          some (p + 8, M.setReg σ .ALLOC_PTR (p + BitVec.ofInt 64 (len + 8)))
        else none
  else none

/-- `alloc`: the address of the object and the state. `RAW_RECORD` has no meaning here, since its
code moves the allocation pointer by more than the object takes. -/
def Alloc.eval : Alloc .cpp → List MLVal → Option (Word × MState)
  | .SPECIAL, [d, v] => allocWords M σ d.word [v.word]
  | .RECORD desc _, vs => desc.toUInt64.bind fun d => allocWords M σ d (vs.map (·.word))
  | .RAW_ALLOC desc align len, _ => allocRaw M σ desc align len
  | _, _ => none

/-- Add an address to the store list: a cell of the address and the old list, and the allocation
pointer moves past it. -/
def noteStore (adr : Word) : MState :=
  let p := M.getReg σ .ALLOC_PTR
  let q := M.getReg σ .STORE_PTR
  let σ := M.setReg (σ.storeAll p [adr, q]) .STORE_PTR p
  M.setReg σ .ALLOC_PTR (p + 16)

/-- `setter`: the boxed updates add the address to the store list before they store. A special
register gets an ML value only. -/
def Setter.eval : Setter .cpp → List MLVal → Option MState
  | .UNBOXED_UPDATE, [a, i, v] =>
      if i.isInt then some (σ.store (a.word + i.word * 8) v.word) else none
  | .UPDATE, [a, i, v] =>
      let adr := a.word + i.word * 8
      if i.isInt then some ((noteStore M σ adr).store adr v.word) else none
  | .UNBOXED_ASSIGN, [a, v] => some (σ.store a.word v.word)
  | .ASSIGN, [a, v] => some ((noteStore M σ a.word).store a.word v.word)
  | .RAW_UPDATE kind sz, [a, i, v] =>
      if isWordField kind sz ∧ i.isInt then some (σ.store (a.word + i.word * 8) v.word) else none
  | .RAW_STORE kind sz, [a, i, v] =>
      if isWordField kind sz ∧ i.isInt then some (σ.store (a.word + i.word) v.word) else none
  | .SET_HDLR, [v] => if v.isInt then none else some (M.setReg σ .EXN_HNDLR v.word)
  | .SET_VAR, [v] => if v.isInt then none else some (M.setReg σ .VAR_PTR v.word)
  | _, _ => none

/-- `branch`: the tests on words. Pointers are equal when their words are, and `LIMIT` compares
the allocation pointer with the limit, less the slop that is always there. -/
def Branch.eval : Branch .cpp → List MLVal → Option Bool
  | .CMP (.con op) signed sz, [x, y] =>
      if sz = 64 then some (op.holds (intOf signed 64 x.word) (intOf signed 64 y.word)) else none
  | .PEQL, [x, y] => some (x.word == y.word)
  | .PNEQ, [x, y] => some (x.word != y.word)
  | .LIMIT amt, _ =>
      let p := M.getReg σ .ALLOC_PTR
      let slop := M.target.allocSlopSzb
      some ((M.getReg σ .LIMIT_PTR).ult
        (if amt > slop then p + BitVec.ofNat 64 (amt - slop) else p))
  | _, _ => none

end CfgPrim

namespace Cfg

/-! ### Expressions -/

mutual

/-- The value of an expression. It has none where the generated code has no meaning: for a size
other than 64, for an index beyond its 32 bits, and for an invariant load of bytes that may
change. -/
def Exp.eval (M : Machine) (ρ : Env) (σ : MState) : Exp .cpp → Option MLVal
  | .VAR name => ρ name
  | .LABEL name => (M.entry name).map fun _ => .ml (M.label name)
  | .NUM iv sz =>
      if sz = 64 then (if iv.getSign < 0 then iv.toInt64 else iv.toUInt64).map .int else none
  | .LOOKER oper args => (Exp.evalArgs M ρ σ args).bind (oper.eval M σ)
  | .PURE oper args => (Exp.evalArgs M ρ σ args).bind (oper.eval σ)
  | .SELECT idx arg =>
      if -2 ^ 31 ≤ idx ∧ idx < 2 ^ 31 then
        (arg.eval M ρ σ).bind fun a =>
          let adr := a.word + BitVec.ofInt 64 (idx * 8)
          if Mem.within M.fixed adr.toNat 8 then some (.ml (σ.load adr)) else none
      else none

/-- The values of arguments, from left to right. Expressions change nothing, so the order is not
seen. -/
def Exp.evalArgs (M : Machine) (ρ : Env) (σ : MState) : List (Exp .cpp) → Option (List MLVal)
  | [] => some []
  | e :: es => do
      let v ← e.eval M ρ σ
      let vs ← Exp.evalArgs M ρ σ es
      some (v :: vs)

end

/-- There are as many values as arguments. -/
theorem Exp.length_evalArgs {M : Machine} {ρ : Env} {σ : MState} {args : List (Exp .cpp)}
    {vs : List MLVal} (h : Exp.evalArgs M ρ σ args = some vs) : vs.length = args.length := by
  induction args generalizing vs with
  | nil =>
      cases h
      rfl
  | cons e es ih =>
      obtain ⟨v, -, h⟩ := Option.bind_eq_some_iff.mp h
      obtain ⟨vs', hvs', h⟩ := Option.bind_eq_some_iff.mp h
      cases h
      rw [List.length_cons, ih hvs', List.length_cons]

/-- The address after a number of words, as a natural number. -/
theorem ofInt_words (n : Nat) : BitVec.ofInt 64 ((n : Int) * 8) = BitVec.ofNat 64 (8 * n) := by
  have hcast : (n : Int) * 8 = ((8 * n : Nat) : Int) := by omega
  rw [hcast, BitVec.ofInt_natCast]

/-! ### Statements -/

/-- A program runs, or it has transferred control to another function. An argument
that the convention leaves open has no value. -/
inductive Config where
  | run (s : Stm .cpp) (ρ : Env) (σ : MState)
  | exit (isTail : Bool) (fn : Word) (args : List (Option Word)) (σ : MState)

/-- The stores so far, of a run that goes on and of one that has left the cluster. -/
def Config.trace : Config → List IR.Write
  | .run _ _ σ => σ.trace
  | .exit _ _ _ σ => σ.trace

variable (M : Machine) (ρ : Env) (σ : MState)

/-- The address that an `APPLY` or a `THROW` transfers control to, and the kind and the
parameters of the code there. -/
def Exp.target (fn : Exp .cpp) (kind : FragKind) (tys : List Ty) :
    Option (Word × Tagged FragKind × List Ty) :=
  match Codegen.isLABEL fn with
  | some lab => (M.entry lab).map fun f => (M.code lab, f.kind, f.params.map (·.ty))
  | none => (fn.eval M ρ σ).bind fun f => if f.isInt then none else some (f.word, .con kind, tys)

/-- Leave the cluster with arguments for parameters of some types: the special registers come
first, the unused arguments are undefined, and the types are those that the callee declares. -/
def leave (fn : Word) (unused : Nat) (tys : List Ty) (args : List (Exp .cpp)) : Option Config := do
  let vs ← Exp.evalArgs M ρ σ args
  if vs.length ≤ tys.length ∧ tys.all (·.isWord) then
    some (.exit true fn ((M.machineWords σ).map some ++ List.replicate unused none
      ++ vs.map fun v => some v.word) σ)
  else none

/-- An integer operation that reports overflow: a result that does not fit raises the
exception, with the registers that the handler needs. -/
def arithStep (op : CfgPrim.Arithop) (a b : Word) (param : Param) (k : Stm .cpp) :
    Option Config := do
  let r ← op.denote a.toInt b.toInt
  if op.divides ∧ a.toInt = -2 ^ 63 ∧ b.toInt = -1 then none
  else if Bits.Fits 64 r then
    some (.run k (ρ.set param.name (.int (BitVec.ofInt 64 r))) σ)
  else
    some (.exit false (σ.load (M.slot M.target.raiseOvflwOffset))
      ((M.machineWords σ).map some) σ)

/-- A collection: the registers and the roots go to the collector and come back. -/
def gcStep (roots : List Word) (newRoots : List LVar) (k : Stm .cpp) : Option Config :=
  let fn := σ.load (M.slot M.target.callGCOffset)
  let res := M.call fn (M.machineWords σ ++ roots) σ.mem
  let n := M.target.numMachineRegs
  if roots.length = M.target.numGCRoots ∧ res.1.length = n + M.target.numGCRoots ∧
      newRoots.length ≤ M.target.numGCRoots then
    some (.run k (ρ.setAll newRoots ((res.1.drop n).map .ml))
      ({ σ with mem := res.2 }.setRegs M.target.machineRegs res.1))
  else none

/-- The variables at the start of a fragment: its parameters, and nothing from the fragment
before. -/
def Frag.env (f : Frag .cpp) (vs : List MLVal) : Env :=
  Env.setAll (fun _ => none) (f.params.map (·.name)) (castAll (f.params.map (·.ty)) vs)

/-- Arguments that a fragment can be entered with: one word for each parameter. -/
def Frag.accepts (f : Frag .cpp) (vs : List MLVal) : Bool :=
  vs.length = f.params.length ∧ f.params.all (·.ty.isWord)

/-- Jump to a fragment of the cluster. Only an internal one can be reached, since the entry has no
phi nodes. -/
def gotoStep (lab : LVar) (vs : List MLVal) : Option Config := do
  let f ← M.frags.find? fun f => f.lab == lab
  if f.kind = .con .INTERNAL ∧ f.accepts vs then some (.run f.body (f.env vs) σ) else none

/-- What one statement does, without the promise about the bytes that stay the same. -/
def Stm.eval : Stm .cpp → Option Config
  | .LET exp param k => do
      let v ← exp.eval M ρ σ
      some (.run k (ρ.set param.name v) σ)
  | .ALLOC oper args lhs k => do
      let vs ← Exp.evalArgs M ρ σ args
      let (w, σ') ← oper.eval M σ vs
      some (.run k (ρ.set lhs (.ml w)) σ')
  | .APPLY fn args tys => do
      let (f, kind, tys) ← fn.target M ρ σ .STD_FUN tys
      leave M ρ σ f (if kind = .con .STD_CONT then 2 else 0) tys args
  | .THROW fn args tys => do
      let (f, kind, tys) ← fn.target M ρ σ .STD_CONT tys
      if kind = .con .STD_CONT then leave M ρ σ f 2 tys args else none
  | .GOTO lab args => do
      let vs ← Exp.evalArgs M ρ σ args
      gotoStep M σ lab vs
  | .SWITCH arg cases => do
      let v ← arg.eval M ρ σ
      let k ← cases[(v.word.setWidth 32).toNat]?
      some (.run k ρ σ)
  | .BRANCH oper args _ trueK falseK => do
      let vs ← Exp.evalArgs M ρ σ args
      let b ← oper.eval M σ vs
      some (.run (if b then trueK else falseK) ρ σ)
  | .ARITH (.ARITH (.con op) sz) args param k =>
      match Exp.evalArgs M ρ σ args with
      | some [a, b] => if sz = 64 then arithStep M ρ σ op a.word b.word param k else none
      | _ => none
  | .ARITH _ _ _ _ => none
  | .SETTER oper args k => do
      let vs ← Exp.evalArgs M ρ σ args
      let σ' ← oper.eval M σ vs
      some (.run k ρ σ')
  | .CALLGC roots newRoots k => do
      let vs ← Exp.evalArgs M ρ σ roots
      gcStep M ρ σ (vs.map (·.word)) newRoots k
  | .RCC .. => none

/-- One statement that breaks no promise: it does not store to memory that is to stay the
same. Its stores are those that are new in the trace. -/
def Stm.step (s : Stm .cpp) : Option Config :=
  (s.eval M ρ σ).filter fun q => IR.keeps M.fixed (q.trace.drop σ.trace.length)

/-- One step of a cluster. A run that has left the cluster makes no step. -/
def Config.step : Config → Option Config
  | .run s ρ σ => s.step M ρ σ
  | .exit .. => none

/-- A statement makes a step if it has a meaning and stores to no byte that is promised to stay
the same. -/
theorem Stm.step_eq_some {M : Machine} {ρ : Env} {σ : MState} {s : Stm .cpp} {q : Config} :
    s.step M ρ σ = some q ↔ s.eval M ρ σ = some q ∧
      IR.keeps M.fixed (q.trace.drop σ.trace.length) = true := by
  rw [Stm.step, Option.filter_eq_some_iff]

/-- Any number of steps within a cluster, the one that leaves it included. -/
def Runs (M : Machine) : Config → Config → Prop :=
  Relation.ReflTransGen fun q q' => q.step M = some q'

end Cfg

end SmlnjCfg
