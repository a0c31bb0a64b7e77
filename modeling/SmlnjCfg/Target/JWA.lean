import SmlnjCfg.Lib.CallConv
import SmlnjCfg.Codegen.Layout

/-!
# `SmlnjCfg.Target.JWA`: the registers of the Jump-With-Arguments convention

The rules `CC_AArch64_JWA` and `CC_X86_64_JWA` of the two back ends, and the
arguments that `APPLY` and `THROW` pass by them: the special registers, the
unused slots of a continuation and the user arguments. The counts that the
code generator checks are those of `TargetInfo`; the registers are those of
the convention.

`APPLY::codegen` takes the kind of a label's entry for the layout, but checks
the number of arguments as for a standard function. So an `APPLY` of a label
whose entry is a continuation has two more arguments than the check counts.
`argTys_of_APPLY` and `argTys_of_THROW` connect the argument types here to
what the two statements generate. The main results:

* `sufficient_iff`: an argument list that passes the check gets registers as
  it should exactly when its floats fit the convention, which on x86-64 the
  check ensures, and there are registers for the two unused arguments that the
  check leaves out.
* `not_sufficient_seventeen`: seventeen doubles on AArch64 pass the check,
  and do not fit.
-/

set_option autoImplicit false

namespace SmlnjCfg.JWA

open CallConv Codegen Cfg

/-- The value types of arguments. -/
inductive ValueType where
  | i1 | i8 | i16 | i32 | i64 | iPTR | f32 | f64
  deriving DecidableEq, Repr

/-- The registers that the conventions name. -/
inductive Reg where
  -- x86-64
  | RBX | RCX | RDX | RSI | RDI | RBP | R8 | R9 | R10 | R11 | R12 | R13 | R14 | R15
  | XMM (n : Nat)
  -- AArch64
  | X (n : Nat) | W (n : Nat) | S (n : Nat) | D (n : Nat) | Q (n : Nat)
  deriving DecidableEq, Repr

/-- The two kinds of registers. -/
inductive Bank where
  | gp | fp
  deriving DecidableEq, Repr

/-- The hardware register a name is a part of. Registers with the same unit
overlap. -/
def Reg.unit : Reg → Bank × Nat
  | RBX => (.gp, 3)
  | RCX => (.gp, 1)
  | RDX => (.gp, 2)
  | RSI => (.gp, 6)
  | RDI => (.gp, 7)
  | RBP => (.gp, 5)
  | R8 => (.gp, 8)
  | R9 => (.gp, 9)
  | R10 => (.gp, 10)
  | R11 => (.gp, 11)
  | R12 => (.gp, 12)
  | R13 => (.gp, 13)
  | R14 => (.gp, 14)
  | R15 => (.gp, 15)
  | XMM n => (.fp, n)
  | X n => (.gp, n)
  | W n => (.gp, n)
  | S n => (.fp, n)
  | D n => (.fp, n)
  | Q n => (.fp, n)

/-- The supported targets. -/
inductive Target where
  | x86_64 | aarch64
  deriving DecidableEq, Repr

namespace Target

/-- The description of a target. -/
def info : Target → TargetInfo
  | x86_64 => x86_64Info
  | aarch64 => arm64Info

/-- The numbers of the general-purpose registers of `CC_AArch64_JWA`. -/
def aarch64GP : List Nat :=
  [24, 25, 26, 27, 28, -- ALLOC, LIMIT, STORE, EXN, VAR
   3, 2, 1, -- LINK, CLOS, CONT
   4, 5, 6, -- MISC0-MISC2 (aka, CS0-CS2)
   0, 7, 8, 9, 10, 11, 12, -- ARG, MISC3-MISC8
   13, 14, 15, 16, 19, 20, -- MISC9-MISC14
   21, 22, 23] -- MISC15-MISC17

/-- The registers for a value of type `i64`. -/
def gpRegs : Target → List Reg
  | x86_64 =>
      [.RDI, .R14, .R15, -- ALLOC, LIMIT, STORE
       .R8, .R9, .RSI, -- LINK, CLOS, CONT
       .RBX, .RCX, .RDX, -- MISC01-MISC2 (CALLEE SAVES)
       .RBP, .R10, .R11, -- ARG, MISC3, MISC4
       .R12, .R13] -- MISC5, MISC6
  | aarch64 => aarch64GP.map .X

/-- The convention of a target. -/
def rules : Target → List (Rule ValueType Reg)
  | x86_64 =>
      [.convert [.i8, .i16, .i32] .i64,
       assignToReg [.i64] (gpRegs x86_64),
       assignToReg [.f32, .f64] ((List.range 16).map .XMM)]
  | aarch64 =>
      [.convert [.iPTR] .i64,
       .convert [.i1, .i8, .i16, .i32] .i64,
       assignToRegWithShadow [.i64] (gpRegs aarch64) (aarch64GP.map .W),
       assignToRegWithShadow [.f32] ((List.range 16).map .S) ((List.range 16).map .Q),
       assignToRegWithShadow [.f64] ((List.range 16).map .D) ((List.range 16).map .Q)]

/-- The register named for a special register that is a machine register. -/
def cmReg : Target → CMRegId → Option Reg
  | x86_64, .ALLOC_PTR => some .RDI
  | x86_64, .LIMIT_PTR => some .R14
  | x86_64, .STORE_PTR => some .R15
  | x86_64, _ => none
  | aarch64, .ALLOC_PTR => some (.X 24)
  | aarch64, .LIMIT_PTR => some (.X 25)
  | aarch64, .STORE_PTR => some (.X 26)
  | aarch64, .EXN_HNDLR => some (.X 27)
  | aarch64, .VAR_PTR => some (.X 28)

end Target

/-- The value type of an argument: a pointer is an integer of 64 bits. -/
def valueType : IR.Ty → ValueType
  | .int bits =>
      if bits = 64 then .i64 else if bits = 32 then .i32
      else if bits = 16 then .i16 else if bits = 8 then .i8 else .i1
  | .float => .f32
  | .double => .f64
  | .ptr => .i64

/-! ### Argument lists -/

/-- The two statements that call by the convention. An `APPLY` of a label
comes with the kind of the entry fragment of the label's cluster, and an
`APPLY` of any other value with none. -/
inductive Transfer where
  | APPLY (entry : Option FragKind)
  | THROW
  deriving DecidableEq

/-- The kind by whose layout the arguments are passed, as in `APPLY::codegen`
and `THROW::codegen`. -/
def Transfer.kind : Transfer → FragKind
  | .APPLY none => .STD_FUN
  | .APPLY (some kind) => kind
  | .THROW => .STD_CONT

/-- The check of the number of arguments in `APPLY::codegen` and
`THROW::codegen`. -/
def passesCheck (t : Target) (tr : Transfer) (tys : List Ty) : Bool :=
  match tr with
  | .APPLY _ => checkArgRegs t.info.numGPArgRegs t.info.numFPArgRegs tys
  | .THROW => checkArgRegs (t.info.numGPArgRegs - 2) t.info.numFPArgRegs tys

/-- The types of all arguments. Both targets are PC-relative, so there is no
base pointer. -/
def argTys (t : Target) (tr : Transfer) (tys : List Ty) : List IR.Ty :=
  paramTysOf (argInfo t.info false tr.kind) ++ tys.map genTy

/-- The registers of all arguments. -/
def argRegs (t : Target) (tr : Transfer) (tys : List Ty) : List (Option Reg) :=
  assign Reg.unit t.rules ((argTys t tr tys).map valueType) []

/-- The bank of a type. -/
def bankOf (ty : IR.Ty) : Bank := if ty = .float ∨ ty = .double then .fp else .gp

/-- The check leaves out the two unused arguments of a continuation for an
`APPLY` of a label, so there have to be registers for them. -/
def LeavesUnused (t : Target) (tr : Transfer) (tys : List Ty) : Prop :=
  tr = .APPLY (some .STD_CONT) → tys.countP (fun ty => !isFLTt ty) + 2 ≤ t.info.numGPArgRegs

instance (t : Target) (tr : Transfer) (tys : List Ty) : Decidable (LeavesUnused t tr tys) :=
  inferInstanceAs (Decidable (_ → _))

/-- What the convention has to provide for an argument list. -/
structure Sufficient (t : Target) (tr : Transfer) (tys : List Ty) : Prop where
  /-- Every argument is in a register. -/
  assigned : ∀ r ∈ argRegs t tr tys, r ≠ none
  /-- No two arguments share a register. -/
  distinct : ((argRegs t tr tys).map (Option.map Reg.unit)).Nodup
  /-- The special registers are in the registers named for them. -/
  special : ∀ (i : Nat) (r : CMRegId), t.info.machineRegs[i]? = some r →
    (argRegs t tr tys)[i]? = some (t.cmReg r)
  /-- The register of a general-purpose argument is given by the number of
  such arguments before it. -/
  general : ∀ (i : Nat) (ty : IR.Ty), (argTys t tr tys)[i]? = some ty → bankOf ty = .gp →
    (argRegs t tr tys)[i]? =
      some t.gpRegs[((argTys t tr tys).take i).countP fun ty => bankOf ty = .gp]?

/-! ### The arguments of the generated calls -/

/-- The kind of the entry fragment of a label's cluster, if the label is known. -/
def entryKind (c : Context) (lab : LVar) : Option FragKind := do
  let f ← c.clusterMap lab
  let entry ← f.cluster.frags.head?
  match entry.kind with
  | .con kind => some kind
  | .undeclared _ => none

/-- The transfer that an `APPLY` of an expression makes. -/
def applyOf (c : Context) (fn : Exp .cpp) : Transfer := .APPLY ((isLABEL fn).bind (entryKind c))

/-- The arguments by the layout of a transfer: the machine registers, the
unused slots and the user arguments, which have the types `tys` if the type
of the callee gives them. -/
private theorem argTys_of_setup {t : Target} (tr : Transfer) {tys fnTy : List IR.Ty}
    {needs : Bool} {es : List (Exp .cpp)} {c c' : Context} {vs : List Val}
    (hc : c.target = t.info) (hlen : es.length = tys.length)
    (hty : fnTy = paramTysOf (argInfo t.info needs tr.kind) ++ tys)
    (h : (setupStdArgs fnTy (.con tr.kind) es).run c = .ok (vs, c')) :
    ∃ regs rest, vs = regs ++ rest ∧ regs.length = t.info.numMachineRegs ∧
      paramTysOf (argInfo t.info false tr.kind) ++ tys
        = List.replicate t.info.numMachineRegs ptrTy ++ rest.map IR.Value.getType := by
  have huses : t.info.usesBasePtr = false := by cases t <;> rfl
  have hinfo : ∀ needs, argInfo t.info needs tr.kind
      = ⟨t.info.numMachineRegs, 0, (argInfo t.info false tr.kind).nUnused⟩ := by
    intro needs
    cases tr.kind <;> simp [argInfo, huses]
  set n := (argInfo t.info false tr.kind).nUnused with hn
  obtain ⟨extra, user, hextra, hcast, rfl⟩ := run_setupStdArgs.mp h
  obtain ⟨-, regs, base, hregs, hbase, rfl⟩ := run_createArgs.mp hextra
  rw [hc, hinfo] at hbase hcast ⊢
  obtain rfl : base = [] := by simpa using hbase
  have hreglen : regs.length = t.info.numMachineRegs := by
    simpa [TargetInfo.numMachineRegs, hc] using congrArg List.length hregs
  have hparams : paramTysOf ⟨t.info.numMachineRegs, 0, n⟩
      = List.replicate t.info.numMachineRegs ptrTy ++ List.replicate n ptrTy := by
    simp [paramTysOf]
  refine ⟨regs, List.replicate n (.undef ptrTy) ++ user, by simp, hreglen, ?_⟩
  -- the user arguments have the types at the end of the callee's type
  have huser : user.map IR.Value.getType = tys := by
    refine List.ext_getElem? fun k => ?_
    have hlens := length_castArgs hcast
    cases hk : user[k]? with
    | none =>
        have := List.getElem?_eq_none_iff.mp hk
        rw [List.getElem?_map, hk, List.getElem?_eq_none (by omega)]
        rfl
    | some v =>
        have := getType_castArgs hcast k v hk
        rw [hty, hinfo, hparams, List.getElem?_append_right (by simp [hreglen])] at this
        rw [List.getElem?_map, hk, Option.map_some, ← this]
        congr 1
        simp [hreglen]
  rw [hinfo, hparams, List.map_append, huser, List.map_replicate, List.append_assoc]
  rfl

/-- What `argTys` gives for an `APPLY` are the types of the arguments that its
code passes, where the type of a label's function is the one of its entry with
the user types `tys`. The values of the machine registers are left out: their
parameters are pointers. The code is generated only if the check passes. -/
theorem argTys_of_APPLY {t : Target} {i : Nat} {path : List Nat} {fn : Exp .cpp}
    {args : List (Exp .cpp)} {tys : List Ty} {c c' : Context} (hc : c.target = t.info)
    (hlen : args.length = tys.length)
    (hlab : ∀ lab cf, isLABEL fn = some lab → c.clusterMap lab = some cf → ∃ kind needs,
      entryKind c lab = some kind ∧
        cf.fn.fnTy = paramTysOf (argInfo t.info needs kind) ++ tys.map genTy)
    (h : (Stm.APPLY fn args tys).codegen i path c = .ok ((), c')) :
    passesCheck t (applyOf c fn) tys = true ∧ ∃ f regs rest insts bb, c'.body.insts
        = insts ++ [(bb, .exitCall true f (regs ++ rest)), (bb, .term .retVoid)] ∧
      regs.length = t.info.numMachineRegs ∧ argTys t (applyOf c fn) tys
        = List.replicate t.info.numMachineRegs ptrTy ++ rest.map IR.Value.getType := by
  obtain ⟨f, fnTy, fk, d, hcallee, hcheck, vs, e, hvs, rfl⟩ := codegen_APPLY_ok.mp h
  obtain ⟨is, hext⟩ := Gen.ext_of_run hcallee
  have hd : d.target = t.info := by rw [hext.frame]; exact hc
  rw [hd] at hcheck
  obtain ⟨hfk, needs, hty⟩ : fk = .con (applyOf c fn).kind ∧ ∃ needs,
      fnTy = paramTysOf (argInfo t.info needs (applyOf c fn).kind) ++ tys.map genTy := by
    cases hf : isLABEL fn with
    | none =>
        have hp := callee_value hf hcallee
        obtain ⟨rfl, rfl⟩ := Prod.mk.inj hp
        rw [applyOf, hf, hc]
        exact ⟨rfl, _, rfl⟩
    | some lab =>
        obtain ⟨cf, frag, hcf, hfrag, hp⟩ := callee_label hf hcallee
        obtain ⟨rfl, rfl⟩ := Prod.mk.inj hp
        obtain ⟨kind, needs, hkind, hfnTy⟩ := hlab lab cf hf hcf
        have hfk : frag.kind = .con kind := by
          simp only [entryKind, hcf, hfrag, Option.bind_eq_bind, Option.bind_some] at hkind
          cases hk : frag.kind with
          | con k => rw [hk] at hkind; rw [Option.some.inj hkind]
          | undeclared n => rw [hk] at hkind; exact nomatch hkind
        have happly : (applyOf c fn).kind = kind := by
          rw [applyOf, hf, Option.bind_some, hkind]
          rfl
        rw [happly]
        exact ⟨hfk, needs, hfnTy⟩
  subst hfk
  obtain ⟨regs, rest, rfl, hregs, htys⟩ :=
    argTys_of_setup _ hd (by rw [List.length_map, hlen]) hty hvs
  refine ⟨hcheck, f, regs, rest, e.body.insts, e.curBB, ?_, hregs, htys⟩
  simp [callAndReturn, Context.append]

/-- The same for a `THROW`, which passes its arguments to a continuation. -/
theorem argTys_of_THROW {t : Target} {i : Nat} {path : List Nat} {fn : Exp .cpp}
    {args : List (Exp .cpp)} {tys : List Ty} {c c' : Context} (hc : c.target = t.info)
    (hlen : args.length = tys.length)
    (hlab : ∀ lab cf, isLABEL fn = some lab → c.clusterMap lab = some cf → ∃ needs,
      cf.fn.fnTy = paramTysOf (argInfo t.info needs .STD_CONT) ++ tys.map genTy)
    (h : (Stm.THROW fn args tys).codegen i path c = .ok ((), c')) :
    passesCheck t .THROW tys = true ∧ ∃ f regs rest insts bb, c'.body.insts
        = insts ++ [(bb, .exitCall true f (regs ++ rest)), (bb, .term .retVoid)] ∧
      regs.length = t.info.numMachineRegs ∧ argTys t .THROW tys
        = List.replicate t.info.numMachineRegs ptrTy ++ rest.map IR.Value.getType := by
  obtain ⟨f, fnTy, fk, d, hcallee, hcheck, vs, e, hvs, rfl⟩ := codegen_THROW_ok.mp h
  obtain ⟨is, hext⟩ := Gen.ext_of_run hcallee
  have hd : d.target = t.info := by rw [hext.frame]; exact hc
  rw [hd] at hcheck
  obtain ⟨needs, hty⟩ : ∃ needs,
      fnTy = paramTysOf (argInfo t.info needs .STD_CONT) ++ tys.map genTy := by
    cases hf : isLABEL fn with
    | none =>
        have hp := callee_value hf hcallee
        obtain ⟨rfl, rfl⟩ := Prod.mk.inj hp
        rw [hc]
        exact ⟨_, rfl⟩
    | some lab =>
        obtain ⟨cf, frag, hcf, -, hp⟩ := callee_label hf hcallee
        obtain ⟨rfl, -⟩ := Prod.mk.inj hp
        exact hlab lab cf hf hcf
  obtain ⟨regs, rest, rfl, hregs, htys⟩ :=
    argTys_of_setup .THROW hd (by rw [List.length_map, hlen]) hty hvs
  refine ⟨hcheck, f, regs, rest, e.body.insts, e.curBB, ?_, hregs, htys⟩
  simp [callAndReturn, Context.append]

/-! ### The conventions have two banks -/

/-- The bank that a value type draws on, if there is a rule for it. -/
def bank : Target → ValueType → Option Bank
  | _, .f32 => some .fp
  | _, .f64 => some .fp
  | .x86_64, .i1 => none
  | .x86_64, .iPTR => none
  | _, _ => some .gp

/-- The registers for a value type, with their shadows. -/
def regsOf : Target → ValueType → List (Reg × List Reg)
  | .x86_64, .f32 => ((List.range 16).map .XMM).map fun r => (r, [])
  | .x86_64, .f64 => ((List.range 16).map .XMM).map fun r => (r, [])
  | .x86_64, .i1 => []
  | .x86_64, .iPTR => []
  | .x86_64, _ => (Target.gpRegs .x86_64).map fun r => (r, [])
  | .aarch64, .f32 =>
      ((List.range 16).map .S).zip (((List.range 16).map .Q).map fun s => [s])
  | .aarch64, .f64 =>
      ((List.range 16).map .D).zip (((List.range 16).map .Q).map fun s => [s])
  | .aarch64, _ =>
      (Target.gpRegs .aarch64).zip ((Target.aarch64GP.map Reg.W).map fun s => [s])

/-- The units of a bank. -/
def units (t : Target) : Option Bank → List (Bank × Nat)
  | none => []
  | some .gp => t.gpRegs.map Reg.unit
  | some .fp => (List.range 16).map fun n => (.fp, n)

private theorem tryRules_eq (t : Target) (vt : ValueType) (taken : List Reg) :
    tryRules Reg.unit t.rules vt taken =
      handOut taken ((regsOf t vt).find? fun p => isFree Reg.unit taken p.1) := by
  cases t with
  | x86_64 =>
      rw [Target.rules, tryRules_convert]
      cases vt with
      | i1 => rfl
      | iPTR => rfl
      | f32 =>
          rw [assignToReg, tryRules_assign_of_not_mem (by decide)]
          exact tryRules_assign_of_mem (by decide) rfl
      | f64 =>
          rw [assignToReg, tryRules_assign_of_not_mem (by decide)]
          exact tryRules_assign_of_mem (by decide) rfl
      | _ => exact tryRules_assign_of_mem (by decide) rfl
  | aarch64 =>
      rw [Target.rules, tryRules_convert, tryRules_convert]
      cases vt with
      | f32 =>
          rw [assignToRegWithShadow, tryRules_assign_of_not_mem (by decide)]
          exact tryRules_assign_of_mem (by decide) rfl
      | f64 =>
          rw [assignToRegWithShadow, tryRules_assign_of_not_mem (by decide),
            assignToRegWithShadow, tryRules_assign_of_not_mem (by decide)]
          exact tryRules_assign_of_mem (by decide) rfl
      | _ => exact tryRules_assign_of_mem (by decide) rfl

/-- Both conventions have a general-purpose and a floating-point bank. -/
theorem banked (t : Target) : Banked Reg.unit t.rules (bank t) (regsOf t) (units t) where
  tryRules_eq := tryRules_eq t
  units_eq vt := by cases t <;> cases vt <;> decide
  shadows_eq vt := by cases t <;> cases vt <;> decide
  nodup_units b := by
    rcases b with _ | _ | _
    · exact List.nodup_nil
    · cases t <;> decide
    · cases t <;> decide
  disjoint_units b b' hne := by
    have key : ∀ b b' : Option Bank, b ≠ b' → ∀ u ∈ units t b, u ∉ units t b' := by
      intro b b'
      rcases b with _ | _ | _ <;> rcases b' with _ | _ | _ <;> cases t <;> decide
    exact key b b' hne

/-! ### The registers of an argument list -/

section

variable {t : Target} {tr : Transfer} {tys : List Ty}

theorem bankOf_genTy (ty : Ty) : bankOf (genTy ty) = if isFLTt ty then .fp else .gp := by
  cases ty with
  | FLTt sz => rcases fType_cases sz with h | h <;> simp [genTy, bankOf, isFLTt, h]
  | _ => rfl

/-- The special registers and the unused slots come before the user arguments. -/
theorem argTys_eq : argTys t tr tys =
    List.replicate (t.info.numMachineRegs + (argInfo t.info false tr.kind).nUnused) ptrTy
      ++ tys.map genTy := by
  have huses : t.info.usesBasePtr = false := by cases t <;> rfl
  have hbase : (argInfo t.info false tr.kind).basePtr = 0 := by
    cases tr.kind <;> simp [argInfo]
  rw [argTys, paramTysOf, List.replicate_add, hbase, if_pos rfl, List.append_nil, nExtra_eq,
    List.append_assoc]

private theorem bank_valueType {ty : IR.Ty} (h : ty ∈ argTys t tr tys) :
    bank t (valueType ty) = some (bankOf ty) := by
  rw [argTys_eq, List.mem_append] at h
  rcases h with h | h
  · rw [List.eq_of_mem_replicate h]
    cases t <;> rfl
  · obtain ⟨ty, -, rfl⟩ := List.mem_map.mp h
    cases ty with
    | FLTt sz =>
        rcases fType_cases sz with h | h <;> cases t <;> simp [genTy, valueType, bank, bankOf, h]
    | NUMt sz =>
        rcases iBits_cases sz with h | h | h | h <;> cases t <;>
          simp [genTy, iType, valueType, bank, bankOf, h]
    | _ => cases t <;> rfl

/-- The register of an argument is given by its position in its bank. -/
theorem argRegs_get (i : Nat) : (argRegs t tr tys)[i]? =
    (argTys t tr tys)[i]?.map fun ty =>
      ((regsOf t (valueType ty))[((argTys t tr tys).take i).countP
        fun ty' => bankOf ty' = bankOf ty]?).map Prod.fst := by
  have hnone : TakenOf Reg.unit (units t) (fun _ => 0) [] := by simp [TakenOf]
  rw [argRegs, assign_eq (banked t) hnone, List.getElem?_map, Option.map_map]
  cases hi : (argTys t tr tys)[i]? with
  | none => rfl
  | some ty =>
      simp only [Option.map_some, Function.comp_apply, Nat.zero_add, ← List.map_take,
        List.countP_map]
      have hty := bank_valueType (List.mem_of_getElem? hi)
      have hcount : ((argTys t tr tys).take i).countP
            ((fun v => decide (bank t v = bank t (valueType ty))) ∘ valueType)
          = ((argTys t tr tys).take i).countP fun ty' => decide (bankOf ty' = bankOf ty) := by
        refine List.countP_congr fun ty' hty' => ?_
        have := bank_valueType (List.mem_of_mem_take hty')
        simp [this, hty]
      rw [hcount]

/-- The number of arguments of a bank. -/
theorem countP_argTys (b : Bank) : (argTys t tr tys).countP (fun ty => bankOf ty = b) =
    match b with
    | .gp => t.info.numMachineRegs + (argInfo t.info false tr.kind).nUnused
        + tys.countP fun ty => !isFLTt ty
    | .fp => tys.countP isFLTt := by
  have hptr : bankOf ptrTy = .gp := rfl
  rw [argTys_eq, List.countP_append, List.countP_replicate, List.countP_map]
  cases b with
  | gp =>
      simp only [hptr, decide_true, if_true]
      congr 2
      funext ty
      cases h : isFLTt ty <;> simp [bankOf_genTy, h]
  | fp =>
      simp only [hptr, reduceCtorEq, decide_false, Bool.false_eq_true, if_false, Nat.zero_add]
      congr 1
      funext ty
      cases h : isFLTt ty <;> simp [bankOf_genTy, h]

private theorem regsOf_fst {t : Target} {vt : ValueType} (h : bank t vt = some .gp) :
    (regsOf t vt).map Prod.fst = t.gpRegs := by
  cases t <;> cases vt <;> first | rfl | (exact absurd h (by decide))

/-- The number of registers of a bank. -/
private def bankSize (t : Target) : Bank → Nat
  | .gp => t.gpRegs.length
  | .fp => 16

private theorem length_regsOf {t : Target} {vt : ValueType} {b : Bank} (h : bank t vt = some b) :
    (regsOf t vt).length = bankSize t b := by
  have hlen : (units t (some b)).length = (regsOf t vt).length := by
    rw [← h, ← (banked t).units_eq vt, List.length_map]
  rw [← hlen]
  cases b with
  | gp => exact List.length_map _
  | fp => exact (List.length_map _).trans List.length_range

/-- There are as many registers as the target's description says. -/
private theorem length_gpRegs (t : Target) :
    (t.gpRegs.length : Int) = t.info.numMachineRegs + t.info.numGPArgRegs := by
  cases t <;> rfl

/-- The general-purpose arguments that pass the check fit the convention,
unless two unused ones come on top of the arguments that are counted. -/
private theorem countP_gp_le (h : passesCheck t tr tys = true) :
    (argTys t tr tys).countP (fun ty => bankOf ty = .gp) ≤ t.gpRegs.length
      ↔ LeavesUnused t tr tys := by
  have hlen := length_gpRegs t
  rw [countP_argTys, nUnused_eq, LeavesUnused]
  show t.info.numMachineRegs + _ + _ ≤ _ ↔ _
  cases tr with
  | THROW =>
      have htwo : 2 ≤ t.info.numGPArgRegs := by cases t <;> decide
      simp only [passesCheck, checkArgRegs, Bool.decide_and, Bool.and_eq_true,
        decide_eq_true_eq] at h
      have := h.1
      simp only [Transfer.kind, if_true, reduceCtorEq, false_implies, iff_true]
      omega
  | APPLY entry =>
      simp only [passesCheck, checkArgRegs, Bool.decide_and, Bool.and_eq_true,
        decide_eq_true_eq] at h
      have := h.1
      by_cases hentry : entry = some .STD_CONT
      · subst hentry
        simp only [Transfer.kind, if_true, true_implies]
        omega
      · have hkind : (Transfer.APPLY entry).kind ≠ .STD_CONT := by
          cases entry with
          | none => decide
          | some kind => exact fun he => hentry (congrArg some he)
        rw [if_neg hkind]
        simp only [Transfer.APPLY.injEq, hentry, false_implies, iff_true]
        omega

/-- An argument whose position in its bank is in the list gets a register. -/
private theorem assigned_of_lt {i : Nat} {ty : IR.Ty} (hi : (argTys t tr tys)[i]? = some ty)
    (hlt : ((argTys t tr tys).take i).countP (fun ty' => bankOf ty' = bankOf ty)
      < (regsOf t (valueType ty)).length) : ∃ r, (argRegs t tr tys)[i]? = some (some r) := by
  rw [argRegs_get, hi, Option.map_some, List.getElem?_eq_getElem hlt]
  exact ⟨_, rfl⟩

/-- The register of a general-purpose argument. -/
private theorem argRegs_gp {i : Nat} {ty : IR.Ty} (hi : (argTys t tr tys)[i]? = some ty)
    (hty : bankOf ty = .gp) : (argRegs t tr tys)[i]? =
      some t.gpRegs[((argTys t tr tys).take i).countP fun ty => bankOf ty = .gp]? := by
  have hb := bank_valueType (List.mem_of_getElem? hi)
  rw [hty] at hb
  rw [argRegs_get, hi, Option.map_some, ← List.getElem?_map, regsOf_fst hb, hty]

/-- The special registers have the first registers of the convention. -/
private theorem gpRegs_special {i : Nat} {r : CMRegId} (h : t.info.machineRegs[i]? = some r) :
    t.gpRegs[i]? = t.cmReg r := by
  have key : ∀ t : Target, ∀ i < t.info.machineRegs.length,
      t.gpRegs[i]? = (t.info.machineRegs[i]?).bind t.cmReg := by
    intro t
    cases t <;> decide
  rw [key t i (List.getElem?_eq_some_iff.mp h).1, h]
  rfl

/-- An argument that finds all registers of its bank taken gets none, and then
the convention does not suffice. -/
private theorem not_sufficient_of_lt {b : Bank}
    (hlt : bankSize t b < (argTys t tr tys).countP (fun ty => bankOf ty = b)) :
    ¬ Sufficient t tr tys := by
  intro hs
  obtain ⟨i, ty, hi, hty, hcount⟩ := exists_countP_take (k := bankSize t b) _ hlt
  have hty : bankOf ty = b := of_decide_eq_true hty
  have hlen : (regsOf t (valueType ty)).length = bankSize t b := by
    rw [length_regsOf (bank_valueType (List.mem_of_getElem? hi)), hty]
  have hnone : (argRegs t tr tys)[i]? = some none := by
    rw [argRegs_get, hi, Option.map_some, hty, hcount, List.getElem?_eq_none (Nat.le_of_eq hlen)]
    rfl
  exact hs.assigned none (List.mem_of_getElem? hnone) rfl

/-- An argument list that passes the check in `APPLY::codegen` or
`THROW::codegen` gets its registers as it should exactly when there are
enough floating-point registers in the convention, on x86-64 always and on
AArch64 for up to 16 floats, and an `APPLY` of a continuation's label leaves
two general-purpose registers for the unused arguments. -/
theorem sufficient_iff (t : Target) (tr : Transfer) (tys : List Ty)
    (h : passesCheck t tr tys = true) :
    Sufficient t tr tys ↔
      (t = .x86_64 ∨ tys.countP isFLTt ≤ 16) ∧ LeavesUnused t tr tys := by
  have hfp : (argTys t tr tys).countP (fun ty => bankOf ty = .fp) = tys.countP isFLTt :=
    countP_argTys .fp
  constructor
  · intro hs
    refine ⟨?_, (countP_gp_le h).mp (Nat.not_lt.mp fun hgt =>
      not_sufficient_of_lt (b := .gp) hgt hs)⟩
    cases t with
    | x86_64 => exact .inl rfl
    | aarch64 =>
        exact .inr (Nat.not_lt.mp fun hgt =>
          not_sufficient_of_lt (b := .fp) (Nat.lt_of_lt_of_eq hgt hfp.symm) hs)
  · rintro ⟨hle, hunused⟩
    have hle : tys.countP isFLTt ≤ 16 := by
      refine hle.elim (fun ht => ?_) id
      subst ht
      cases tr <;>
        simp [passesCheck, checkArgRegs, Target.info, x86_64Info] at h <;> omega
    have hall : ∀ (i : Nat) (ty : IR.Ty), (argTys t tr tys)[i]? = some ty →
        ∃ r, (argRegs t tr tys)[i]? = some (some r) := by
      intro i ty hi
      refine assigned_of_lt hi ?_
      have hlt := countP_take_lt (fun ty' => decide (bankOf ty' = bankOf ty)) hi
        (decide_eq_true rfl) (List.getElem?_eq_some_iff.mp hi).1
      rw [List.take_length] at hlt
      rw [length_regsOf (bank_valueType (List.mem_of_getElem? hi))]
      cases hb : bankOf ty with
      | gp =>
          rw [hb] at hlt
          exact Nat.lt_of_lt_of_le hlt ((countP_gp_le h).mpr hunused)
      | fp =>
          rw [hb, hfp] at hlt
          exact Nat.lt_of_lt_of_le hlt hle
    have hlen : (argRegs t tr tys).length = (argTys t tr tys).length := by
      rw [argRegs, length_assign, List.length_map]
    have hget : ∀ i : Nat, i < (argRegs t tr tys).length →
        ∃ r, (argRegs t tr tys)[i]? = some (some r) := fun i hi =>
      hall i _ (List.getElem?_eq_getElem (hlen ▸ hi))
    exact {
      assigned := fun r hr => by
        obtain ⟨i, hi, rfl⟩ := List.mem_iff_getElem.mp hr
        obtain ⟨r, hr⟩ := hget i hi
        rw [List.getElem?_eq_getElem hi, Option.some_inj] at hr
        rw [hr]
        exact Option.some_ne_none r
      distinct := by
        have hnone : TakenOf Reg.unit (units t) (fun _ => 0) [] := by simp [TakenOf]
        refine List.pairwise_iff_getElem.mpr fun i j hi hj hij => ?_
        rw [List.length_map] at hi hj
        obtain ⟨r, hr⟩ := hget i hi
        obtain ⟨r', hr'⟩ := hget j hj
        have hne := assign_unit_ne (banked t) hnone hij hr hr'
        rw [List.getElem?_eq_getElem hi, Option.some_inj] at hr
        rw [List.getElem?_eq_getElem hj, Option.some_inj] at hr'
        rw [List.getElem_map, List.getElem_map, hr, hr']
        exact fun he => hne (Option.some.inj he)
      special := fun i r hr => by
        have hlt : i < t.info.numMachineRegs := (List.getElem?_eq_some_iff.mp hr).1
        have hi : (argTys t tr tys)[i]? = some ptrTy := by
          rw [argTys_eq, List.getElem?_append_left (by rw [List.length_replicate]; omega),
            List.getElem?_replicate, if_pos (by omega)]
        have hcount : ((argTys t tr tys).take i).countP (fun ty => bankOf ty = .gp) = i := by
          rw [argTys_eq, List.take_append_of_le_length (by rw [List.length_replicate]; omega),
            List.take_replicate, List.countP_replicate, if_pos (by decide)]
          omega
        rw [argRegs_gp hi rfl, hcount, gpRegs_special hr]
      general := fun i ty hi hty => argRegs_gp hi hty }

/-- Nine pointers on x86-64 and the two unused arguments before them use up
the general-purpose registers, for an `APPLY` of a continuation's label. -/
theorem sufficient_nine :
    passesCheck .x86_64 (.APPLY (some .STD_CONT)) (List.replicate 9 .PTRt) = true ∧
      (Sufficient .x86_64 (.APPLY (some .STD_CONT)) (List.replicate 9 .PTRt) ↔
        (Target.x86_64 = .x86_64 ∨ (List.replicate 9 Ty.PTRt).countP isFLTt ≤ 16) ∧
          LeavesUnused .x86_64 (.APPLY (some .STD_CONT)) (List.replicate 9 .PTRt)) :=
  ⟨by decide, sufficient_iff .x86_64 (.APPLY (some .STD_CONT)) _ (by decide)⟩

/-- On AArch64, seventeen doubles pass the check, and the last one gets no
register. -/
theorem not_sufficient_seventeen :
    passesCheck .aarch64 (.APPLY none) (List.replicate 17 (.FLTt 64)) = true ∧
      ¬ Sufficient .aarch64 (.APPLY none) (List.replicate 17 (.FLTt 64)) :=
  ⟨by decide, fun h => h.assigned none (by decide) rfl⟩

end

end SmlnjCfg.JWA
