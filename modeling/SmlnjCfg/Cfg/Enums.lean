import SmlnjCfg.Asdl.Depth
import SmlnjCfg.Cfg.Format

/-!
# `SmlnjCfg.Cfg.Enums`: the enumeration fields of a tree

The unpicklers of the enumerations cast the tag to the `enum class`, and never
look whether it is one. `fields` are the enumeration fields of a tree, in the
order in which they are read. The theorems:

* `fields_read`: the reader of a compilation unit goes along the format of its
  pickle, and the fields of the tree are made of the tags that are met.
* `run_read_ok_iff`, `run_read_error_iff`: the same for a run.
* `run_read_ne_outOfFuel`: the readers do not recurse deeper than the pickle is
  long.
-/

set_option autoImplicit false

namespace SmlnjCfg

open Asdl LambdaVar Cfg

/-! ### The fields of a tree -/

namespace CTypes

mutual

/-- The enumeration fields of a C type: the type of its integers, if it has any. -/
def CType.fields : CType .cpp → List EnumField
  | .C_unsigned ty => [⟨.cInt, ty⟩]
  | .C_signed ty => [⟨.cInt, ty⟩]
  | .C_ARRAY ty _ => ty.fields
  | .C_STRUCT fields => CType.fieldss fields
  | .C_UNION fields => CType.fieldss fields
  | _ => []

/-- `fields` of the elements of a list. -/
def CType.fieldss : List (CType .cpp) → List EnumField
  | [] => []
  | t :: ts => t.fields ++ CType.fieldss ts

end

/-- The loop over a list of types is `flatMap`. -/
theorem CType.fieldss_eq (ts : List (CType .cpp)) : CType.fieldss ts = ts.flatMap CType.fields := by
  induction ts with
  | nil => rfl
  | cons t ts ih => rw [CType.fieldss, ih, List.flatMap_cons]

/-- The enumeration fields of a prototype. -/
def CProto.fields (p : CProto .cpp) : List EnumField :=
  p.retTy.fields ++ p.paramTys.flatMap CType.fields

end CTypes

namespace CfgPrim

/-- The enumeration field of a raw type. -/
def RawTy.fields (t : RawTy .cpp) : List EnumField := [⟨.numkind, t.kind⟩]

/-- The enumeration fields of an allocation: only the fields of a raw record have a kind. -/
def Alloc.fields : Alloc .cpp → List EnumField
  | .RAW_RECORD _ _ fields => fields.flatMap RawTy.fields
  | _ => []

/-- The enumeration fields of an arithmetic operation: its operator, or its rounding mode. The
code generator does not look at the latter. -/
def Arith.fields : Arith .cpp → List EnumField
  | .ARITH oper _ => [⟨.arithop, oper⟩]
  | .FLOAT_TO_INT mode _ _ => [⟨.roundingMode, mode⟩]

/-- The enumeration fields of a pure operation. -/
def Pure.fields : CfgPrim.Pure .cpp → List EnumField
  | .PURE_ARITH oper _ => [⟨.pureop, oper⟩]
  | .PURE_RAW_SUBSCRIPT kind _ => [⟨.numkind, kind⟩]
  | .RAW_SELECT kind _ _ => [⟨.numkind, kind⟩]
  | _ => []

/-- The enumeration fields of a looker. -/
def Looker.fields : Looker .cpp → List EnumField
  | .RAW_SUBSCRIPT kind _ => [⟨.numkind, kind⟩]
  | .RAW_LOAD kind _ => [⟨.numkind, kind⟩]
  | _ => []

/-- The enumeration fields of a setter. -/
def Setter.fields : Setter .cpp → List EnumField
  | .RAW_UPDATE kind _ => [⟨.numkind, kind⟩]
  | .RAW_STORE kind _ => [⟨.numkind, kind⟩]
  | _ => []

/-- The enumeration fields of a branch test. -/
def Branch.fields : Branch .cpp → List EnumField
  | .CMP oper _ _ => [⟨.cmpop, oper⟩]
  | .FCMP oper _ => [⟨.fcmpop, oper⟩]
  | _ => []

end CfgPrim

namespace Cfg

mutual

/-- The enumeration fields of an expression, in the order of the pickle: first those of the
operator, then those of the arguments. -/
def Exp.fields : Exp .cpp → List EnumField
  | .LOOKER oper args => oper.fields ++ Exp.fieldss args
  | .PURE oper args => oper.fields ++ Exp.fieldss args
  | .SELECT _ arg => arg.fields
  | _ => []

/-- `fields` of the elements of a list. -/
def Exp.fieldss : List (Exp .cpp) → List EnumField
  | [] => []
  | e :: es => e.fields ++ Exp.fieldss es

end

/-- The loop over a list of expressions is `flatMap`. -/
theorem Exp.fieldss_eq (es : List (Exp .cpp)) : Exp.fieldss es = es.flatMap Exp.fields := by
  induction es with
  | nil => rfl
  | cons e es ih => rw [Exp.fieldss, ih, List.flatMap_cons]

mutual

/-- The enumeration fields of a statement. Those of the statements that follow come last. -/
def Stm.fields : Stm .cpp → List EnumField
  | .LET exp _ k => exp.fields ++ k.fields
  | .ALLOC oper args _ k => oper.fields ++ (args.flatMap Exp.fields ++ k.fields)
  | .APPLY fn args _ => fn.fields ++ args.flatMap Exp.fields
  | .THROW fn args _ => fn.fields ++ args.flatMap Exp.fields
  | .GOTO _ args => args.flatMap Exp.fields
  | .SWITCH arg cases => arg.fields ++ Stm.fieldss cases
  | .BRANCH oper args _ trueK falseK =>
      oper.fields ++ (args.flatMap Exp.fields ++ (trueK.fields ++ falseK.fields))
  | .ARITH oper args _ k => oper.fields ++ (args.flatMap Exp.fields ++ k.fields)
  | .SETTER oper args k => oper.fields ++ (args.flatMap Exp.fields ++ k.fields)
  | .CALLGC roots _ k => roots.flatMap Exp.fields ++ k.fields
  | .RCC _ _ proto args _ _ k => proto.fields ++ (args.flatMap Exp.fields ++ k.fields)

/-- `fields` of the elements of a list. -/
def Stm.fieldss : List (Stm .cpp) → List EnumField
  | [] => []
  | s :: ss => s.fields ++ Stm.fieldss ss

end

/-- The loop over a list of statements is `flatMap`. -/
theorem Stm.fieldss_eq (ss : List (Stm .cpp)) : Stm.fieldss ss = ss.flatMap Stm.fields := by
  induction ss with
  | nil => rfl
  | cons s ss ih => rw [Stm.fieldss, ih, List.flatMap_cons]

/-- The enumeration fields of a fragment, of which its kind is the first. -/
def Frag.fields (f : Frag .cpp) : List EnumField := ⟨.fragKind, f.kind⟩ :: f.body.fields

/-- The enumeration fields of a cluster. -/
def Cluster.fields (c : Cluster .cpp) : List EnumField := c.frags.flatMap Frag.fields

/-- The enumeration fields of a compilation unit. -/
def CompUnit.fields (cu : CompUnit .cpp) : List EnumField :=
  cu.entry.fields ++ cu.fns.flatMap Cluster.fields

end Cfg

/-! ### The readers follow the format -/

section

variable {ref : Nonterminal → Reader (List EnumField)}

/-- Nothing is left of a record. -/
@[simp] theorem walk_fields_nil :
    fieldScanner.walk ref (.fields []) = pure [] := rfl

/-- The first field of a record. What is met in it comes before what is met in the others. -/
@[simp] theorem walk_fields_cons (f : Fmt) (fs : List Fmt) :
    fieldScanner.walk ref (.fields (f :: fs))
      = fieldScanner.walk ref f >>= fun xs =>
          fieldScanner.walk ref (.fields fs) >>= fun ys => pure (xs ++ ys) := rfl

/-- A constructor without fields. -/
@[simp] theorem walk_empty : fieldScanner.walk ref .empty = pure [] := rfl

/-- A basic type has no fields, so its value is read and dropped. -/
@[simp] theorem walk_basic (b : Basic) :
    fieldScanner.walk ref (.basic b) = (fun _ => []) <$> b.skip := rfl

/-- An enumeration is its own field. The readers below are this one at their lists of
constructors. -/
theorem walk_enum (e : Enum) :
    fieldScanner.walk ref (.enum e) = (fun x => [⟨e, x⟩]) <$> readEnum e.cons := by
  show (fun x => [x]) <$> EnumField.ofTag <$> (fun tag => (e, tag)) <$> readTag8 = _
  simp [readEnum, EnumField.ofTag]

/-- The kind of a number. -/
@[simp] theorem walk_numkind : fieldScanner.walk ref (.enum .numkind)
    = (fun x => [⟨.numkind, x⟩]) <$> CfgPrim.readNumkind := walk_enum _

/-- A rounding mode. -/
@[simp] theorem walk_roundingMode : fieldScanner.walk ref (.enum .roundingMode)
    = (fun x => [⟨.roundingMode, x⟩]) <$> CfgPrim.readRoundingMode := walk_enum _

/-- A trapping operator. -/
@[simp] theorem walk_arithop : fieldScanner.walk ref (.enum .arithop)
    = (fun x => [⟨.arithop, x⟩]) <$> CfgPrim.readArithop := walk_enum _

/-- A pure operator. -/
@[simp] theorem walk_pureop : fieldScanner.walk ref (.enum .pureop)
    = (fun x => [⟨.pureop, x⟩]) <$> CfgPrim.readPureop := walk_enum _

/-- A comparison of integers. -/
@[simp] theorem walk_cmpop : fieldScanner.walk ref (.enum .cmpop)
    = (fun x => [⟨.cmpop, x⟩]) <$> CfgPrim.readCmpop := walk_enum _

/-- A comparison of floating-point numbers. -/
@[simp] theorem walk_fcmpop : fieldScanner.walk ref (.enum .fcmpop)
    = (fun x => [⟨.fcmpop, x⟩]) <$> CfgPrim.readFcmpop := walk_enum _

/-- The kind of a fragment. -/
@[simp] theorem walk_fragKind : fieldScanner.walk ref (.enum .fragKind)
    = (fun x => [⟨.fragKind, x⟩]) <$> readFragKind := walk_enum _

/-- The type of a C integer. -/
@[simp] theorem walk_cInt : fieldScanner.walk ref (.enum .cInt)
    = (fun x => [⟨.cInt, x⟩]) <$> CTypes.readCInt := walk_enum _

/-- A tag chooses the format of the rest. For a tag that is no constructor, the format and the
reader both stop with the same error. -/
theorem walk_tagged {α : Type} {cases : Nat → Fmt} {f : Nat → Reader α}
    {fields : α → List EnumField}
    (h : ∀ tag, fieldScanner.walk ref (cases tag) = fields <$> f tag) :
    fieldScanner.walk ref (.tagged cases) = fields <$> (readTag8 >>= f) := by
  show (readTag8 >>= fun tag => fieldScanner.walk ref (cases tag)) = _
  simp only [h, map_bind]

/-- The elements of a sequence, whose fields are put one after the other. -/
theorem walk_seq {α : Type} {f : Fmt} {read : Reader α} {fields : α → List EnumField}
    (h : fieldScanner.walk ref f = fields <$> read) :
    fieldScanner.walk ref (.seq f) = List.flatMap fields <$> readSeq read :=
  fieldScanner.walk_seq h

/-- The elements of a sequence, of a type without fields. -/
theorem walk_seq_plain {α : Type} {f : Fmt} {read : Reader α}
    (h : fieldScanner.walk ref f = (fun _ => []) <$> read) :
    fieldScanner.walk ref (.seq f) = (fun _ => []) <$> readSeq read := by
  have hnil : (List.flatMap fun _ : α => ([] : List EnumField)) = fun _ => [] := by
    funext xs
    induction xs with
    | nil => rfl
    | cons x xs ih => exact ih
  rw [walk_seq h, hnil]

end

namespace CfgPrim

variable {ref : Nonterminal → Reader (List EnumField)}

/-- A field of a raw record is read along its format. The lemmas from here on say for each type
that the scanner and the reader take the same bytes, and what of the tree the scanner keeps. -/
@[simp] theorem walk_rawTy :
    fieldScanner.walk ref RawTy.format = RawTy.fields <$> RawTy.read := by
  simp [RawTy.format, RawTy.read, RawTy.fields, Basic.skip]

/-- An allocation, constructor by constructor. -/
@[simp] theorem walk_alloc :
    fieldScanner.walk ref Alloc.format = Alloc.fields <$> Alloc.read := by
  refine walk_tagged fun tag => ?_
  match tag with
  | 1 => simp [Alloc.fields]
  | 2 => simp [Alloc.fields, Basic.skip]
  | 3 => simp [Alloc.fields, Basic.skip, walk_seq walk_rawTy]
  | 4 => simp [Alloc.fields, Basic.skip]
  | 0 => rfl
  | tag + 5 => rfl

/-- A trapping operation. -/
@[simp] theorem walk_arith :
    fieldScanner.walk ref Arith.format = Arith.fields <$> Arith.read := by
  refine walk_tagged fun tag => ?_
  match tag with
  | 1 => simp [Arith.fields, Basic.skip]
  | 2 => simp [Arith.fields, Basic.skip]
  | 0 => rfl
  | tag + 3 => rfl

/-- A pure operation. -/
@[simp] theorem walk_pure :
    fieldScanner.walk ref Pure.format = Pure.fields <$> Pure.read := by
  refine walk_tagged fun tag => ?_
  match tag with
  | 1 => simp [Pure.fields, Basic.skip]
  | 2 => simp [Pure.fields, Basic.skip]
  | 3 => simp [Pure.fields, Basic.skip]
  | 4 => simp [Pure.fields, Basic.skip]
  | 5 => simp [Pure.fields, Basic.skip]
  | 6 => simp [Pure.fields, Basic.skip]
  | 7 => simp [Pure.fields]
  | 8 => simp [Pure.fields, Basic.skip]
  | 9 => simp [Pure.fields, Basic.skip]
  | 0 => rfl
  | tag + 10 => rfl

/-- A looker. -/
@[simp] theorem walk_looker :
    fieldScanner.walk ref Looker.format = Looker.fields <$> Looker.read := by
  refine walk_tagged fun tag => ?_
  match tag with
  | 1 => simp [Looker.fields]
  | 2 => simp [Looker.fields]
  | 3 => simp [Looker.fields, Basic.skip]
  | 4 => simp [Looker.fields, Basic.skip]
  | 5 => simp [Looker.fields]
  | 6 => simp [Looker.fields]
  | 0 => rfl
  | tag + 7 => rfl

/-- A setter. -/
@[simp] theorem walk_setter :
    fieldScanner.walk ref Setter.format = Setter.fields <$> Setter.read := by
  refine walk_tagged fun tag => ?_
  match tag with
  | 1 => simp [Setter.fields]
  | 2 => simp [Setter.fields]
  | 3 => simp [Setter.fields]
  | 4 => simp [Setter.fields]
  | 5 => simp [Setter.fields, Basic.skip]
  | 6 => simp [Setter.fields, Basic.skip]
  | 7 => simp [Setter.fields]
  | 8 => simp [Setter.fields]
  | 0 => rfl
  | tag + 9 => rfl

/-- The test of a branch. -/
@[simp] theorem walk_branch :
    fieldScanner.walk ref Branch.format = Branch.fields <$> Branch.read := by
  refine walk_tagged fun tag => ?_
  match tag with
  | 1 => simp [Branch.fields, Basic.skip]
  | 2 => simp [Branch.fields, Basic.skip]
  | 3 => simp [Branch.fields, Basic.skip]
  | 4 => simp [Branch.fields]
  | 5 => simp [Branch.fields]
  | 6 => simp [Branch.fields, Basic.skip]
  | 0 => rfl
  | tag + 7 => rfl

end CfgPrim

namespace CTypes

/-- A C type is read along its rule, and its fields are those that are met. The induction is on
the fuel, which the reader and the scanner use up alike. -/
theorem scan_cType (fuel : Nat) :
    fieldScanner.scan fuel .c_type = CType.fields <$> CType.read fuel := by
  induction fuel with
  | zero => rfl
  | succ fuel ih =>
      refine walk_tagged fun tag => ?_
      have href : fieldScanner.walk (fieldScanner.scan fuel) (.ref .c_type)
          = CType.fields <$> CType.read fuel := ih
      match tag with
      | 1 => simp [CType.fields]
      | 2 => simp [CType.fields]
      | 3 => simp [CType.fields]
      | 4 => simp [CType.fields]
      | 5 => simp [CType.fields]
      | 6 => simp [CType.fields]
      | 7 => simp [CType.fields]
      | 8 => simp [CType.fields, Basic.skip, href]
      | 9 => simp [CType.fields, CType.fieldss_eq, walk_seq href]
      | 10 => simp [CType.fields, CType.fieldss_eq, walk_seq href]
      | 0 => rfl
      | tag + 11 => rfl

/-- A prototype is read along its format, with the fuel for the types in it. -/
@[simp] theorem walk_cProto (fuel : Nat) :
    fieldScanner.walk (fieldScanner.scan fuel) CProto.format
      = CProto.fields <$> CProto.read fuel := by
  have href : fieldScanner.walk (fieldScanner.scan fuel) (.ref .c_type)
      = CType.fields <$> CType.read fuel := scan_cType fuel
  simp [CProto.format, CProto.read, CProto.fields, readCallingConvention, Basic.skip, href,
    walk_seq href]

end CTypes

namespace Cfg

section

variable {ref : Nonterminal → Reader (List EnumField)}

/-- A type of the CFG has no fields. -/
@[simp] theorem walk_ty : fieldScanner.walk ref Ty.format = (fun _ => []) <$> Ty.read := by
  refine walk_tagged fun tag => ?_
  match tag with
  | 1 => simp
  | 2 => simp
  | 3 => simp
  | 4 => simp [Basic.skip]
  | 5 => simp [Basic.skip]
  | 0 => rfl
  | tag + 6 => rfl

/-- A parameter has none either. -/
@[simp] theorem walk_param :
    fieldScanner.walk ref Param.format = (fun _ => []) <$> Param.read := by
  simp [Param.format, Param.read, Basic.skip]

end

/-- An expression is read along its rule, and its fields are those that are met, by induction on
the fuel again. -/
theorem scan_exp (fuel : Nat) :
    fieldScanner.scan fuel .exp = Exp.fields <$> Exp.read fuel := by
  induction fuel with
  | zero => rfl
  | succ fuel ih =>
      refine walk_tagged fun tag => ?_
      have href : fieldScanner.walk (fieldScanner.scan fuel) (.ref .exp)
          = Exp.fields <$> Exp.read fuel := ih
      match tag with
      | 1 => simp [Exp.fields, Basic.skip]
      | 2 => simp [Exp.fields, Basic.skip]
      | 3 => simp [Exp.fields, Basic.skip]
      | 4 => simp [Exp.fields, Exp.fieldss_eq, walk_seq href]
      | 5 => simp [Exp.fields, Exp.fieldss_eq, walk_seq href]
      | 6 => simp [Exp.fields, Basic.skip, href]
      | 0 => rfl
      | tag + 7 => rfl

/-- A statement is read along its rule, and its fields are those that are met. All other types are
done by now, so each case is one constructor of the rule. -/
theorem scan_stm (fuel : Nat) :
    fieldScanner.scan fuel .stm = Stm.fields <$> Stm.read fuel := by
  induction fuel with
  | zero => rfl
  | succ fuel ih =>
      refine walk_tagged fun tag => ?_
      have hstm : fieldScanner.walk (fieldScanner.scan fuel) (.ref .stm)
          = Stm.fields <$> Stm.read fuel := ih
      have hexp : fieldScanner.walk (fieldScanner.scan fuel) (.ref .exp)
          = Exp.fields <$> Exp.read fuel := scan_exp fuel
      have hexps := walk_seq hexp
      have htys : fieldScanner.walk (fieldScanner.scan fuel) (.seq Ty.format)
          = (fun _ => []) <$> readSeq Ty.read := walk_seq_plain walk_ty
      have hparams : fieldScanner.walk (fieldScanner.scan fuel) (.seq Param.format)
          = (fun _ => []) <$> readSeq Param.read := walk_seq_plain walk_param
      have hlvars : fieldScanner.walk (fieldScanner.scan fuel) (.seq (.basic .lvar))
          = (fun _ => []) <$> readSeq readLvar := by
        refine walk_seq_plain ?_
        simp [Basic.skip]
      match tag with
      | 1 => simp [Stm.fields, hexp, hstm]
      | 2 => simp [Stm.fields, Basic.skip, hexps, hstm]
      | 3 => simp [Stm.fields, hexp, hexps, htys]
      | 4 => simp [Stm.fields, hexp, hexps, htys]
      | 5 => simp [Stm.fields, Basic.skip, hexps]
      | 6 => simp [Stm.fields, Stm.fieldss_eq, hexp, walk_seq hstm]
      | 7 => simp [Stm.fields, Basic.skip, readProbability, hexps, hstm]
      | 8 => simp [Stm.fields, hexps, hstm]
      | 9 => simp [Stm.fields, hexps, hstm]
      | 10 => simp [Stm.fields, readLvarSeq, hexps, hlvars, hstm]
      | 11 => simp [Stm.fields, Basic.skip, hexps, hparams, hstm]
      | 0 => rfl
      | tag + 12 => rfl

/-- A fragment is read along its format. -/
theorem walk_frag (fuel : Nat) :
    fieldScanner.walk (fieldScanner.scan fuel) Frag.format
      = Frag.fields <$> Frag.read fuel := by
  have hstm : fieldScanner.walk (fieldScanner.scan fuel) (.ref .stm)
      = Stm.fields <$> Stm.read fuel := scan_stm fuel
  have hparams : fieldScanner.walk (fieldScanner.scan fuel) (.seq Param.format)
      = (fun _ => []) <$> readSeq Param.read := walk_seq_plain walk_param
  simp [Frag.format, Frag.read, Frag.fields, Basic.skip, hparams, hstm]

/-- A cluster is read along its format. -/
theorem walk_cluster (fuel : Nat) :
    fieldScanner.walk (fieldScanner.scan fuel) Cluster.format
      = Cluster.fields <$> Cluster.read fuel := by
  simp [Cluster.format, Attrs.format, Cluster.read, Attrs.read, Cluster.fields, Basic.skip,
    walk_seq (walk_frag fuel)]

/-- The reader of a compilation unit goes along the format, and the fields of
the tree are what it meets at the enumerations. -/
theorem scan_compUnit : scanCompUnit fieldScanner = CompUnit.fields <$> CompUnit.read := by
  simp [scanCompUnit, CompUnit.format, CompUnit.read, CompUnit.fields, Basic.skip, walk_cluster,
    walk_seq (walk_cluster _)]

end Cfg

/-! ### The tags of a pickle -/

namespace Cfg

/-- A tree has the fields that the readers make of the tags of its pickle. Two scanners are
compared here, one that makes enumerations of the tags and one that keeps the tags. -/
theorem fields_read :
    CompUnit.fields <$> CompUnit.read
      = List.map EnumField.ofTag <$> scanCompUnit tagScanner := by
  rw [← scan_compUnit]
  simp only [scanCompUnit, map_bind]
  refine bind_congr fun is => ?_
  exact tagScanner.walk_map EnumField.ofTag (tagScanner.scan_map EnumField.ofTag _) _

/-- A pickle with tags is read, and a pickle that is read has tags. The tree itself is not needed
to say what its fields are. -/
theorem run_read_ok_iff {is is' : Instream} {fields : List EnumField} :
    (∃ t, CompUnit.read.run is = .ok (t, is') ∧ t.fields = fields) ↔
      ∃ tags, (scanCompUnit tagScanner).run is = .ok (tags, is') ∧
        tags.map EnumField.ofTag = fields := by
  have h := congrArg (fun d => d.run is) fields_read
  simp only [StateT.run_map] at h
  constructor
  · rintro ⟨t, ht, rfl⟩
    rw [ht] at h
    cases hs : (scanCompUnit tagScanner).run is with
    | error e =>
        rw [hs] at h
        cases h
    | ok p =>
        rw [hs] at h
        cases p with
        | mk tags is'' =>
            have hp := Prod.mk.inj (Except.ok.inj h)
            exact ⟨tags, congrArg (fun is => Except.ok (tags, is)) hp.2.symm, hp.1.symm⟩
  · rintro ⟨tags, htags, rfl⟩
    rw [htags] at h
    cases hr : CompUnit.read.run is with
    | error e =>
        rw [hr] at h
        cases h
    | ok p =>
        rw [hr] at h
        cases p with
        | mk t is'' =>
            have hp := Prod.mk.inj (Except.ok.inj h)
            exact ⟨t, congrArg (fun is => Except.ok (t, is)) hp.2, hp.1⟩

/-- A walk reports what the reader reports, in the same place of the input. -/
theorem run_read_error_iff {is : Instream} {e : ReadError} :
    CompUnit.read.run is = .error e ↔ (scanCompUnit tagScanner).run is = .error e := by
  have h := congrArg (fun d => d.run is) fields_read
  simp only [StateT.run_map] at h
  cases hr : CompUnit.read.run is with
  | error e =>
      cases hs : (scanCompUnit tagScanner).run is with
      | error e' =>
          rw [hr, hs] at h
          cases h
          simp
      | ok p =>
          rw [hr, hs] at h
          cases h
  | ok p =>
      cases hs : (scanCompUnit tagScanner).run is with
      | error e' =>
          rw [hr, hs] at h
          cases h
      | ok q => simp

/-! ### The depth of the recursion -/

/-- The readers of the basic types do not run out of fuel. -/
theorem shallow_skip (b : Basic) (n : Nat) : b.skip.Shallow Instream.reads .outOfFuel n := by
  cases b with
  | int => exact shallow_readInt.map _
  | uint => exact shallow_readUint.map _
  | bool => exact shallow_readBool.map _
  | string => exact shallow_readString.map _
  | integer => exact shallow_readInteger.map _
  | integerOption => exact shallow_readIntegerOption.map _
  | lvar => exact shallow_readLvar.map _

/-- Every recursive type is a sum, so its tag is read first. This is why the fuel goes down no
faster than the input. -/
theorem guarded_tagScanner : tagScanner.Guarded Instream.reads where
  basic := shallow_skip
  enum _ _ := shallow_readTag8.map _
  tag _ := shallow_readTag8
  length _ := shallow_readUint
  invalid _ _ := nofun
  consumes := consumes_readTag8
  rules n := by
    cases n with
    | c_type => exact ⟨_, rfl⟩
    | exp => exact ⟨_, rfl⟩
    | stm => exact ⟨_, rfl⟩

/-- The fuel of `CompUnit.read` is never used up: on every input the readers
return or report an error of the stream. -/
theorem run_read_ne_outOfFuel (bytes : List Byte) :
    CompUnit.read.run (place bytes) ≠ .error .outOfFuel := by
  intro h
  have hscan := run_read_error_iff.mp h
  rw [scanCompUnit, Decoder.run_get_bind] at hscan
  generalize hfuel : (place bytes).bytes.length + 1 = fuel at hscan
  have hstring : (tagScanner.walk (tagScanner.scan fuel) (.basic .string)).Consumes
      Instream.reads := (consumes_readString.map _).map _
  have hwalk : (tagScanner.walk (tagScanner.scan fuel) CompUnit.format).Shallow
      Instream.reads .outOfFuel (fuel + 1) := by
    rw [CompUnit.format, Format.fields, Scanner.walk]
    -- the source file's name is read before the first recursive call
    refine hstring.bind_shallow (((shallow_skip .string _).map _)) fun xs => ?_
    exact (guarded_tagScanner.walk (guarded_tagScanner.scan _) _).bind fun ys => .pure _
  have hreads : (place bytes).reads < fuel + 1 := by
    rw [← hfuel]
    exact Nat.lt_succ_self _
  exact (hwalk (place bytes) hreads).1 hscan

end Cfg

end SmlnjCfg
