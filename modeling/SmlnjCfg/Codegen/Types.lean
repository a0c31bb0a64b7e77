import SmlnjCfg.Codegen.Run
import SmlnjCfg.IR.Steps

/-!
# `SmlnjCfg.Codegen.Types`: the types of the values of expressions

The type of the value that the code of an expression has is known before the
code is generated, from the types of the variables and of the register values.

* `Exp.valTy`: that type.
* `Exp.getType_codegen`: the value has it.
* `Gen.Plain`: code that gives no register a new value and stores nothing, as
  that of every expression.
-/

set_option autoImplicit false

namespace SmlnjCfg

/-! ### Code that only computes -/

namespace Codegen

open Gen

variable {α β : Type}

/-- No register gets a new value, and nothing is stored or called. Looking at the context is
allowed, and what comes after may depend on what is seen there. -/
def Gen.Plain : Gen α → Prop
  | .ret _ => True
  | .fail _ => True
  | .read k => ∀ c, (k c).Plain
  | .emit o k => o.isQuiet = true ∧ ∀ id, (k id).Plain
  | .setReg .. => False
  | .use _ k => k.Plain

/-- `c'` differs from `c` in what was generated only: the code, the numbers and the intrinsics.
The equation says of all other fields at once that they are the same. -/
structure SameEnv (c c' : Context) : Prop where
  ctx : c' = { c with body := c'.body, nextId := c'.nextId, memo := c'.memo }

namespace SameEnv

/-- No code at all. -/
theorem refl (c : Context) : SameEnv c c := ⟨rfl⟩

/-- Code after code. -/
theorem trans {c c₁ c' : Context} (h : SameEnv c c₁) (h' : SameEnv c₁ c') : SameEnv c c' where
  ctx := by
    have hc := h'.ctx
    rw [h.ctx] at hc
    exact hc

/-- The registers have the values that they had. -/
theorem regState {c c' : Context} (h : SameEnv c c') : c'.regState = c.regState := by rw [h.ctx]

/-- The variables have the values that they had. -/
theorem vMap {c c' : Context} (h : SameEnv c c') : c'.vMap = c.vMap := by rw [h.ctx]

/-- The target never changes. -/
theorem target {c c' : Context} (h : SameEnv c c') : c'.target = c.target := by rw [h.ctx]

end SameEnv

namespace Gen.Plain

/-- A sequence is plain if both parts are, the second for every result of the first. -/
theorem bind {x : Gen α} {f : α → Gen β} (hx : x.Plain) (hf : ∀ a, (f a).Plain) :
    (x >>= f).Plain := by
  show (x.bind f).Plain
  induction x with
  | ret a => exact hf a
  | fail msg => trivial
  | read k ih => exact fun c => ih c (hx c)
  | emit o k ih => exact ⟨hx.1, fun id => ih id (hx.2 id)⟩
  | setReg r v k ih => exact hx.elim
  | use key k ih => exact ih hx

/-- Plain code leaves the environment as it is, by induction on the code. -/
theorem sameEnv {x : Gen α} {c c' : Context} {a : α} (hx : x.Plain)
    (h : x.run c = .ok (a, c')) : SameEnv c c' := by
  induction x generalizing c with
  | ret b =>
      obtain ⟨-, rfl⟩ : b = a ∧ c = c' := by simpa [run] using h
      exact .refl c
  | fail msg => cases h
  | read k ih => exact ih c (hx c) h
  | emit o k ih => exact SameEnv.trans ⟨rfl⟩ (ih _ (hx.2 _) h)
  | setReg r v k ih => exact hx.elim
  | use key k ih => exact SameEnv.trans ⟨rfl⟩ (ih hx h)

/-- A result without any code. -/
theorem pure (a : α) : (Pure.pure a : Gen α).Plain := trivial

/-- A failed assertion generates nothing. -/
theorem fail (msg : String) : (Gen.fail msg : Gen α).Plain := trivial

/-- A look at the context generates nothing either. -/
theorem ask (f : Context → α) : (Gen.ask f).Plain := fun _ => trivial

/-- An assertion passes or fails. -/
theorem assert (p : Bool) (msg : String) : (Gen.assert p msg).Plain := by
  unfold Gen.assert
  split <;> trivial

/-- A missing value is a failure, and a value that is there is the result. -/
theorem deref (o : Option α) (msg : String) : (Gen.deref o msg).Plain := by
  cases o <;> trivial

/-- One instruction, if it is neither a store nor a call. -/
theorem inst {o : IR.Op Sym} {ty : IR.Ty} (h : o.isQuiet = true) : (Gen.inst o ty).Plain :=
  ⟨h, fun _ => trivial⟩

/-- The first look for an intrinsic declares it in the module, which is no code. -/
theorem memoize (key : MemoKey) : (Gen.memoize key).Plain := trivial

/-- A cast to the type that the value has already is left out, and another one is an
instruction. -/
theorem createCast (op : IR.CastOp) (v : Val) (ty : IR.Ty) :
    (Codegen.createCast op v ty).Plain := by
  unfold Codegen.createCast
  split
  · exact pure v
  · exact inst rfl

/-- A pointer as it is, and an integer cast. -/
theorem asPtr (v : Val) : (Codegen.asPtr v).Plain := by
  unfold Codegen.asPtr
  split
  · exact pure v
  · split
    · exact createCast _ _ _
    · exact fail _

/-- An integer as it is, and a pointer cast. -/
theorem asInt (v : Val) : (Codegen.asInt v).Plain := by
  unfold Codegen.asInt
  split
  · exact createCast _ _ _
  · exact pure v

/-- The same at a given size. -/
theorem asIntSz (sz : Int) (v : Val) : (Codegen.asIntSz sz v).Plain := by
  unfold Codegen.asIntSz
  split
  · exact createCast _ _ _
  · exact pure v

/-- A binary operation casts pointers among its operands to integers and is one instruction
then. -/
theorem createBin (op : IR.BinOp) (a b : Val) : (Codegen.createBin op a b).Plain :=
  bind (asInt a) fun _ => bind (asInt b) fun _ => inst rfl

/-- An argument that is missing is a failure of the generator, not of the code. -/
theorem argAt (args : List Val) (i : Nat) : (Codegen.argAt args i).Plain := deref _ _

/-- The base is cast to a pointer before the address is computed. -/
theorem createGEPTy (elemTy : IR.Ty) (base idx : Val) :
    (Codegen.createGEPTy elemTy base idx).Plain := bind (asPtr base) fun _ => inst rfl

/-- The address of a stack slot is computed from the stack pointer. -/
theorem stkAddr (off : Int) : (Codegen.stkAddr off).Plain :=
  bind (inst rfl) fun _ => bind (createBin _ _ _) fun _ => createCast _ _ _

/-- A load is plain, since it changes nothing. -/
theorem loadFromStack (off : Int) : (Codegen.loadFromStack off).Plain :=
  bind (stkAddr off) fun _ => inst rfl

/-- The value of a register is at hand or is loaded from its stack slot. -/
theorem mlReg (r : CMRegId) : (Codegen.mlReg r).Plain := by
  refine bind (ask _) fun v => ?_
  cases v with
  | none => exact bind (ask _) fun t => loadFromStack _
  | some reg => exact pure reg

/-- The address of a label is a symbol or, without PC-relative addressing, computed from the base
pointer. -/
theorem evalLabel (lab : LVar) : (Codegen.evalLabel lab).Plain := by
  refine bind (ask _) fun cluster => bind (deref _ _) fun cluster => bind (ask _) fun t => ?_
  cases t.hasPCRel with
  | true => exact bind (memoize _) fun _ => pure _
  | false =>
      refine bind (ask _) fun basePtr => bind (deref _ _) fun basePtr => ?_
      refine bind (ask _) fun curFn => bind (deref _ _) fun curFn => ?_
      exact bind (createBin _ _ _) fun a => createCast _ _ _

end Gen.Plain

end Codegen

namespace CfgPrim

open Codegen Gen

/-- The code of a pure operation. The operators fall into groups by what they do with their
arguments: used as they are, or cast to integers first. -/
theorem Pure.plain (args : List Val) (p : Pure .cpp) : (p.codegen args).Plain := by
  cases p with
  | PURE_ARITH oper sz =>
      cases oper with
      | undeclared tag => exact .fail _
      | con op =>
          cases op
          case CNTPOP | FMADD | FABS | FCOPYSIGN | FSQRT => exact .inst rfl
          case CNTLZ | CNTTZ | FNEG => exact .bind (.argAt _ _) fun a => .inst rfl
          case ROTL | ROTR | FADD | FSUB | FMUL | FDIV | FREM =>
            exact .bind (.argAt _ _) fun a => .bind (.argAt _ _) fun b => .inst rfl
          all_goals
            exact .bind (.deref _ _) fun op => .bind (.argAt _ _) fun a =>
              .bind (.asIntSz _ _) fun a => .bind (.argAt _ _) fun b =>
              .bind (.asIntSz _ _) fun b => .createBin _ _ _
  | EXTEND signed fromSz toSz =>
      refine .bind (.argAt _ _) fun arg => ?_
      split
      · split <;> exact .createCast _ _ _
      · exact .bind (.assert _ _) fun _ => .bind (.assert _ _) fun _ => .pure _
  | TRUNC fromSz toSz => exact .bind (.argAt _ _) fun a => .createCast _ _ _
  | INT_TO_FLOAT fromSz toSz => exact .bind (.argAt _ _) fun a => .createCast _ _ _
  | FLOAT_TO_BITS sz => exact .bind (.argAt _ _) fun a => .createCast _ _ _
  | BITS_TO_FLOAT sz => exact .bind (.argAt _ _) fun a => .createCast _ _ _
  | PURE_SUBSCRIPT =>
      exact .bind (.argAt _ _) fun a => .bind (.asPtr _) fun base => .bind (.argAt _ _) fun i =>
        .bind (.asInt _) fun i => .bind (.inst rfl) fun adr => .inst rfl
  | PURE_RAW_SUBSCRIPT kind sz =>
      exact .bind (.argAt _ _) fun a => .bind (.argAt _ _) fun i =>
        .bind (.createGEPTy _ _ _) fun adr => .inst rfl
  | RAW_SELECT kind sz offset =>
      exact .bind (.argAt _ _) fun a => .bind (.asPtr _) fun base =>
        .bind (.createGEPTy _ _ _) fun adr => .inst rfl

/-- The code of a looker. It loads, and sets no register even where it reads one. -/
theorem Looker.plain (args : List Val) (l : Looker .cpp) : (l.codegen args).Plain := by
  cases l with
  | DEREF => exact .bind (.argAt _ _) fun a => .bind (.asPtr _) fun base => .inst rfl
  | SUBSCRIPT =>
      exact .bind (.argAt _ _) fun a => .bind (.asPtr _) fun base => .bind (.argAt _ _) fun i =>
        .bind (.asInt _) fun i => .bind (.inst rfl) fun adr => .inst rfl
  | RAW_LOAD kind sz =>
      exact .bind (.argAt _ _) fun a => .bind (.argAt _ _) fun i =>
        .bind (.createGEPTy _ _ _) fun adr => .inst rfl
  | RAW_SUBSCRIPT kind sz =>
      exact .bind (.argAt _ _) fun a => .bind (.argAt _ _) fun i =>
        .bind (.createGEPTy _ _ _) fun adr => .inst rfl
  | GET_HDLR => exact .mlReg _
  | GET_VAR => exact .mlReg _

end CfgPrim

namespace Cfg

open Codegen Gen

mutual

/-- The code of an expression, by recursion on the expression and its arguments. -/
theorem Exp.plain : (e : Exp .cpp) → e.codegen.Plain
  | .VAR name => .bind (.ask _) fun v => .deref _ _
  | .LABEL name => .evalLabel name
  | .NUM iv sz => by
      unfold Exp.codegen
      split
      · exact .bind (.deref _ _) fun n => .pure _
      · exact .bind (.deref _ _) fun n => .pure _
  | .LOOKER oper args => by
      unfold Exp.codegen
      exact .bind (Exp.plain_args args) fun vs => oper.plain vs
  | .PURE oper args => by
      unfold Exp.codegen
      exact .bind (Exp.plain_args args) fun vs => oper.plain vs
  | .SELECT idx arg => by
      unfold Exp.codegen
      exact .bind (Exp.plain arg) fun v => .bind (.asPtr _) fun base =>
        .bind (.inst rfl) fun adr => .inst rfl

/-- The code of arguments, from left to right. -/
theorem Exp.plain_args : (es : List (Exp .cpp)) → (Exp.codegenArgs es).Plain
  | [] => .pure _
  | e :: es => by
      unfold Exp.codegenArgs
      exact .bind (Exp.plain e) fun v => .bind (Exp.plain_args es) fun vs => .pure _

end

end Cfg

/-! ### Types -/

namespace Codegen

open Gen

variable {α : Type}

/-- Every value that `x` returns has the type, in whatever context it is run. -/
def Gen.Returns (x : Gen Val) (ty : IR.Ty) : Prop :=
  ∀ c v c', x.run c = .ok (v, c') → v.getType = ty

namespace Gen.Returns

variable {ty : IR.Ty}

/-- The type of the value of a sequence is that of its last part. -/
theorem bind {x : Gen α} {f : α → Gen Val} (hf : ∀ a, (f a).Returns ty) :
    (x >>= f).Returns ty := by
  intro c v c' h
  obtain ⟨a, c₁, -, h⟩ := run_bind_ok.mp h
  exact hf a c₁ v c' h

/-- The type of the first value is known in what follows. This is for the operations whose result
type is that of an operand after a cast. -/
theorem bindTy {x : Gen Val} {f : Val → Gen Val} {ty₁ : IR.Ty} (hx : x.Returns ty₁)
    (hf : ∀ a, a.getType = ty₁ → (f a).Returns ty) : (x >>= f).Returns ty := by
  intro c v c' h
  obtain ⟨a, c₁, ha, h⟩ := run_bind_ok.mp h
  exact hf a (hx c a c₁ ha) c₁ v c' h

/-- A value that is returned as it is. -/
theorem pure {v : Val} (h : v.getType = ty) : (Pure.pure v : Gen Val).Returns ty := by
  intro c v' c' hrun
  obtain ⟨rfl, -⟩ : v = v' ∧ c = c' := by simpa [Gen.pure_def, run] using hrun
  exact h

/-- Code that fails returns no value at all. -/
theorem fail {msg : String} : (Gen.fail msg).Returns ty := fun _ _ _ h => absurd h run_fail_ok

/-- The result of an instruction has the type that was given for it. -/
theorem inst (o : IR.Op Sym) (ty : IR.Ty) : (Gen.inst o ty).Returns ty := by
  intro c v c' h
  rw [run_inst] at h
  cases h
  rfl

/-- The value of a cast has the type asked for, also where no instruction was needed. -/
theorem createCast (op : IR.CastOp) (v : Val) (ty : IR.Ty) :
    (Codegen.createCast op v ty).Returns ty := by
  unfold Codegen.createCast
  split
  next h => exact pure h
  next => exact inst _ _

/-- A pointer becomes a word, and any other value keeps its type. Floating-point numbers are not
excluded: the source does not look either. -/
theorem asInt (v : Val) :
    (Codegen.asInt v).Returns (if v.getType = ptrTy then intTy else v.getType) := by
  unfold Codegen.asInt
  by_cases h : v.getType = ptrTy
  · rw [if_pos (by rw [h]; rfl), if_pos h]
    exact createCast _ _ _
  · rw [if_neg (by simpa [IR.Ty.isPointerTy] using h), if_neg h]
    exact pure rfl

/-- The same at a given size, for which only pointers are cast. -/
theorem asIntSz (sz : Int) (v : Val) :
    (Codegen.asIntSz sz v).Returns (if v.getType = ptrTy then iType sz else v.getType) := by
  unfold Codegen.asIntSz
  split
  next h => exact createCast _ _ _
  next h => exact pure rfl

/-- The result of an operation on integers has the type of the first operand. A pointer would be
cast first, and the result would have the type of a word. -/
theorem createBin (op : IR.BinOp) {a b : Val} (h : a.getType ≠ ptrTy) :
    (Codegen.createBin op a b).Returns a.getType := by
  refine bindTy (asInt a) fun a' ha' => bind fun b' => ?_
  rw [if_neg h] at ha'
  rw [← ha']
  exact inst _ _

/-- The first argument of an operation. Where there is none, the code fails and there is no value
to speak of. -/
theorem argAt_zero {args : List Val} {f : Val → Gen Val}
    (hf : ∀ a, a.getType = (args.map IR.Value.getType).headD ptrTy → (f a).Returns ty) :
    (argAt args 0 >>= f).Returns ty := by
  intro c v c' h
  obtain ⟨a, c₁, ha, h⟩ := run_bind_ok.mp h
  refine hf a ?_ c₁ v c' h
  have hget := (run_deref_ok.mp ha).1
  cases args with
  | nil => cases hget
  | cons a' args =>
      obtain rfl : a' = a := Option.some.inj hget
      rfl

end Gen.Returns

/-- The type of the value of a register. A register on the stack is read as a pointer. -/
def regTy (c : Context) (r : CMRegId) : IR.Ty := ((c.regState.val r).map (·.getType)).getD ptrTy

/-- The type of the value of a variable, for a bound one. The value for others is arbitrary, since
code generation fails there. -/
def varTy (c : Context) (lv : LVar) : IR.Ty := ((c.vMap lv).map (·.getType)).getD ptrTy

end Codegen

namespace CfgPrim

open Codegen

/-- The type of the result of a pure operation, from the types of its arguments. Only the first
one counts, and only where the operation casts no argument or casts pointers alone. -/
def Pure.valTy (tys : List IR.Ty) : Pure .cpp → IR.Ty
  | .PURE_ARITH oper sz =>
      let bits := if sz = 32 then 32 else 64
      let ty := tys.headD ptrTy
      match oper with
      | .con .CNTPOP => .int bits
      | .con .CNTLZ => .int bits
      | .con .CNTTZ => .int bits
      | .con .ROTL => .int bits
      | .con .ROTR => .int bits
      | .con .FADD => ty
      | .con .FSUB => ty
      | .con .FMUL => ty
      | .con .FDIV => ty
      | .con .FREM => ty
      | .con .FMADD => fType bits
      | .con .FNEG => ty
      | .con .FABS => fType bits
      | .con .FCOPYSIGN => fType bits
      | .con .FSQRT => fType bits
      | _ => if ty = ptrTy then iType sz else ty
  | .EXTEND _ _ toSz => if tys.headD ptrTy = ptrTy then ptrTy else iType toSz
  | .TRUNC _ toSz => iType toSz
  | .INT_TO_FLOAT _ toSz => fType toSz
  | .FLOAT_TO_BITS sz => iType sz
  | .BITS_TO_FLOAT sz => fType sz
  | .PURE_SUBSCRIPT => ptrTy
  | .PURE_RAW_SUBSCRIPT kind sz => numType kind sz
  | .RAW_SELECT kind sz _ => numType kind sz

/-- The type of the result of a looker. What is read from memory by a looker of ML values is a
pointer, and the special registers have the type of the value that they are cached in. -/
def Looker.valTy (c : Context) : Looker .cpp → IR.Ty
  | .DEREF => ptrTy
  | .SUBSCRIPT => ptrTy
  | .RAW_LOAD kind sz => numType kind sz
  | .RAW_SUBSCRIPT kind sz => numType kind sz
  | .GET_HDLR => regTy c .EXN_HNDLR
  | .GET_VAR => regTy c .VAR_PTR

/-- The code of a pure operation returns a value of the type above. The cases are those of
`Pure.plain`. -/
theorem Pure.returns (args : List Val) (p : Pure .cpp) :
    (p.codegen args).Returns (p.valTy (args.map (·.getType))) := by
  cases p with
  | PURE_ARITH oper sz =>
      cases oper with
      | undeclared tag => exact .fail
      | con op =>
          cases op
          case CNTPOP | FMADD | FABS | FCOPYSIGN | FSQRT => exact .inst _ _
          case CNTLZ | CNTTZ => exact .bind fun a => .inst _ _
          case ROTL | ROTR => exact .bind fun a => .bind fun b => .inst _ _
          case FNEG =>
            exact .argAt_zero fun a ha => by rw [Pure.valTy, ← ha]; exact .inst _ _
          case FADD | FSUB | FMUL | FDIV | FREM =>
            exact .argAt_zero fun a ha => .bind fun b => by
              rw [Pure.valTy, ← ha]
              exact .inst _ _
          all_goals
            -- The integer operators: the type is that of the first operand after the cast.
            refine .bind fun op => .argAt_zero fun a ha => .bindTy (.asIntSz sz a) fun a' ha' => ?_
            refine .bind fun b => .bind fun b' => ?_
            show Gen.Returns _ (if (args.map _).headD ptrTy = ptrTy then iType sz
              else (args.map _).headD ptrTy)
            rw [← ha, ← ha']
            refine .createBin _ ?_
            rw [ha']
            split
            · exact nofun
            · assumption
  | EXTEND signed fromSz toSz =>
      refine .argAt_zero fun arg harg => ?_
      rw [Pure.valTy, ← harg]
      by_cases h : arg.getType = ptrTy
      · rw [if_neg (not_not.mpr h), if_pos h]
        exact .bind fun _ => .bind fun _ => .pure h
      · rw [if_pos h, if_neg h]
        cases signed <;> exact .createCast _ _ _
  | TRUNC fromSz toSz => exact .bind fun a => .createCast _ _ _
  | INT_TO_FLOAT fromSz toSz => exact .bind fun a => .createCast _ _ _
  | FLOAT_TO_BITS sz => exact .bind fun a => .createCast _ _ _
  | BITS_TO_FLOAT sz => exact .bind fun a => .createCast _ _ _
  | PURE_SUBSCRIPT =>
      exact .bind fun a => .bind fun base => .bind fun i => .bind fun i => .bind fun adr =>
        .inst _ _
  | PURE_RAW_SUBSCRIPT kind sz =>
      exact .bind fun a => .bind fun i => .bind fun adr => .inst _ _
  | RAW_SELECT kind sz offset =>
      exact .bind fun a => .bind fun base => .bind fun adr => .inst _ _

end CfgPrim

namespace Codegen

open Gen

/-- The value of a register has its type: a load from the stack is of type pointer, and otherwise
it is the value that the register is cached in. -/
theorem mlReg_getType {r : CMRegId} {c c' : Context} {v : Val} (h : (mlReg r).run c = .ok (v, c')) :
    v.getType = regTy c r := by
  obtain ⟨o, c₁, ho, h⟩ := run_bind_ok.mp h
  obtain ⟨rfl, rfl⟩ : c.regState.val r = o ∧ c = c₁ := by simpa [run_ask] using ho
  unfold regTy
  cases hval : c.regState.val r with
  | none =>
      rw [hval] at h
      exact Gen.Returns.bind (fun t => .bind fun adr => .inst _ _) c v c' h
  | some reg =>
      rw [hval] at h
      exact Gen.Returns.pure rfl c v c' h

end Codegen

namespace CfgPrim

open Codegen

/-- The code of a looker returns a value of the type above. -/
theorem Looker.getType_codegen {args : List Val} {l : Looker .cpp} {c c' : Context} {v : Val}
    (h : (l.codegen args).run c = .ok (v, c')) : v.getType = l.valTy c := by
  cases l with
  | DEREF => exact Gen.Returns.bind (fun a => .bind fun base => .inst _ _) c v c' h
  | SUBSCRIPT =>
      exact Gen.Returns.bind (fun a => .bind fun base => .bind fun i => .bind fun i =>
        .bind fun adr => .inst _ _) c v c' h
  | RAW_LOAD kind sz =>
      exact Gen.Returns.bind (fun a => .bind fun i => .bind fun adr => .inst _ _) c v c' h
  | RAW_SUBSCRIPT kind sz =>
      exact Gen.Returns.bind (fun a => .bind fun i => .bind fun adr => .inst _ _) c v c' h
  | GET_HDLR => exact mlReg_getType h
  | GET_VAR => exact mlReg_getType h

end CfgPrim

namespace Cfg

open Codegen Gen

mutual

/-- The type of the value of an expression. Arithmetic on variables may be of pointer type in the
code where the operands are, which is why the types of variables come in. -/
def Exp.valTy (c : Context) : Exp .cpp → IR.Ty
  | .VAR name => varTy c name
  | .LABEL _ => ptrTy
  | .NUM _ sz => iType sz
  | .LOOKER oper _ => oper.valTy c
  | .PURE oper args => oper.valTy (Exp.valTys c args)
  | .SELECT _ _ => ptrTy

/-- The types of the values of expressions, in order. -/
def Exp.valTys (c : Context) : List (Exp .cpp) → List IR.Ty
  | [] => []
  | e :: es => e.valTy c :: Exp.valTys c es

end

mutual

/-- The type depends on the variables and the registers only, so the code of earlier arguments
does not change it. -/
theorem Exp.valTy_congr {c c' : Context} (hv : c'.vMap = c.vMap)
    (hr : c'.regState = c.regState) : (e : Exp .cpp) → e.valTy c' = e.valTy c
  | .VAR name => by rw [Exp.valTy, Exp.valTy, varTy, varTy, hv]
  | .LABEL name => rfl
  | .NUM iv sz => rfl
  | .LOOKER oper args => by
      rw [Exp.valTy, Exp.valTy]
      cases oper <;> simp only [CfgPrim.Looker.valTy, regTy, hr]
  | .PURE oper args => by rw [Exp.valTy, Exp.valTy, Exp.valTys_congr hv hr args]
  | .SELECT idx arg => rfl

/-- Neither do those of arguments. -/
theorem Exp.valTys_congr {c c' : Context} (hv : c'.vMap = c.vMap)
    (hr : c'.regState = c.regState) : (es : List (Exp .cpp)) → Exp.valTys c' es = Exp.valTys c es
  | [] => rfl
  | e :: es => by
      rw [Exp.valTys, Exp.valTys, Exp.valTy_congr hv hr e, Exp.valTys_congr hv hr es]

end

mutual

/-- The value of an expression has its type, in every context in which the expression has code.
The type is computed in the context before the code. -/
theorem Exp.getType_codegen : (e : Exp .cpp) → {c c' : Context} → {v : Val} →
    e.codegen.run c = .ok (v, c') → v.getType = e.valTy c
  | .VAR name, c, c', v, h => by
      obtain ⟨o, c₁, ho, h⟩ := run_bind_ok.mp h
      obtain ⟨rfl, rfl⟩ : c.vMap name = o ∧ c = c₁ := by simpa [run_ask] using ho
      obtain ⟨hv, -⟩ := run_deref_ok.mp h
      rw [Exp.valTy, varTy, hv]
      rfl
  | .LABEL name, c, c', v, h => by
      refine Gen.Returns.bind (fun cluster => .bind fun cluster => .bind fun t => ?_) c v c' h
      cases t.hasPCRel with
      | true => exact .bind fun _ => .pure rfl
      | false => exact .bind fun _ => .bind fun _ => .bind fun _ => .bind fun _ => .bind fun _ =>
          .createCast _ _ _
  | .NUM iv sz, c, c', v, h => by
      unfold Exp.codegen at h
      split at h
      · exact @Gen.Returns.bind _ (iType sz) _ _ (fun n => .pure rfl) c v c' h
      · exact @Gen.Returns.bind _ (iType sz) _ _ (fun n => .pure rfl) c v c' h
  | .LOOKER oper args, c, c', v, h => by
      unfold Exp.codegen at h
      obtain ⟨vs, c₁, hvs, h⟩ := run_bind_ok.mp h
      have henv := (Exp.plain_args args).sameEnv hvs
      rw [CfgPrim.Looker.getType_codegen h, Exp.valTy]
      cases oper <;> simp only [CfgPrim.Looker.valTy, regTy, henv.regState]
  | .PURE oper args, c, c', v, h => by
      unfold Exp.codegen at h
      obtain ⟨vs, c₁, hvs, h⟩ := run_bind_ok.mp h
      rw [oper.returns vs c₁ v c' h, Exp.getTypes_codegen args hvs, Exp.valTy]
  | .SELECT idx arg, c, c', v, h => by
      unfold Exp.codegen at h
      exact Gen.Returns.bind (fun v => .bind fun base => .bind fun adr => .inst _ _) c v c' h

/-- The values of arguments have their types. The code of one leaves variables and registers
alone, so the next types are those of the first context. -/
theorem Exp.getTypes_codegen : (es : List (Exp .cpp)) → {c c' : Context} → {vs : List Val} →
    (Exp.codegenArgs es).run c = .ok (vs, c') → vs.map (·.getType) = Exp.valTys c es
  | [], c, c', vs, h => by
      obtain ⟨rfl, -⟩ : [] = vs ∧ c = c' := by simpa [Exp.codegenArgs, run_ret] using h
      rfl
  | e :: es, c, c', vs, h => by
      unfold Exp.codegenArgs at h
      obtain ⟨v, c₁, hv, h⟩ := run_bind_ok.mp h
      obtain ⟨vs', c₂, hvs, h⟩ := run_bind_ok.mp h
      obtain ⟨rfl, -⟩ : v :: vs' = vs ∧ c₂ = c' := by simpa [run_ret] using h
      have henv := e.plain.sameEnv hv
      rw [List.map_cons, Exp.getType_codegen e hv, Exp.getTypes_codegen es hvs, Exp.valTys,
        Exp.valTys_congr henv.vMap henv.regState es]

end

end Cfg

end SmlnjCfg
