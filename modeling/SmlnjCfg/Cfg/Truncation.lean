import SmlnjCfg.Asdl.Truncation
import SmlnjCfg.Cfg.Image
import SmlnjCfg.Cfg.Pickle
import SmlnjCfg.Cfg.Unpickle

/-!
# `SmlnjCfg.Cfg.Truncation`: reading a proper prefix of a pickle

The end of the input is noticed by the read after the one that missed a
byte. A constructor, a boolean or an integer without its last byte is a
wrong tag or asks for more, but a machine integer or a lambda variable of
more than one byte is complete with a made-up byte `0xff`. `endsWide` says
that a tree ends in such a number. The theorems, type by type:

* `reads_exp`, `reads_stm`: the recursive types, by induction on the fuel.
* `readCompUnit_prefix_iff`: a proper prefix is reported, unless the unit
  ends wide and one byte is missing.

`Encodable` is `InRange` without its bounds on lambda variables and on
arbitrary-precision integers, which the writers do not need.
-/

set_option autoImplicit false

namespace SmlnjCfg

open Asdl Supply

/-! ### The trees that have an encoding -/

namespace CfgPrim

/-- The machine integers of an allocation are in range. Its descriptor may be any integer. -/
def Alloc.Encodable : Alloc .sml → Prop
  | .SPECIAL => True
  | .RECORD _ _ => True
  | .RAW_RECORD _ align fields => IntInRange align ∧ ListInRange RawTy.InRange fields
  | .RAW_ALLOC _ align len => IntInRange align ∧ IntInRange len

end CfgPrim

namespace Cfg

/-- The size of a parameter's type is in range. Its name may be any variable: the writer masks
it. -/
def Param.Encodable (p : Param) : Prop := p.ty.InRange

/-- The machine integers and lists of an expression are in range, so that no assertion of a writer
fails. This is inductive like `InRange`, for the same reason. -/
inductive Exp.Encodable : Exp .sml → Prop where
  | VAR (name : LVar) : Encodable (.VAR name)
  | LABEL (name : LVar) : Encodable (.LABEL name)
  | NUM (iv : Int) {sz : Int} (hsz : IntInRange sz) : Encodable (.NUM iv sz)
  | LOOKER {oper : CfgPrim.Looker .sml} {args : List (Exp .sml)} (hoper : oper.InRange)
      (hlen : args.length < 2 ^ 30) (hargs : ∀ e ∈ args, Encodable e) :
      Encodable (.LOOKER oper args)
  | PURE {oper : CfgPrim.Pure .sml} {args : List (Exp .sml)} (hoper : oper.InRange)
      (hlen : args.length < 2 ^ 30) (hargs : ∀ e ∈ args, Encodable e) :
      Encodable (.PURE oper args)
  | SELECT {idx : Int} {arg : Exp .sml} (hidx : IntInRange idx) (harg : Encodable arg) :
      Encodable (.SELECT idx arg)

/-- The machine integers and lists of a statement are in range. The cases are those of `InRange`,
with the weaker predicates for variables, allocations, parameters and expressions. -/
inductive Stm.Encodable : Stm .sml → Prop where
  | LET {exp : Exp .sml} {param : Param} {k : Stm .sml} (hexp : exp.Encodable)
      (hparam : param.Encodable) (hk : Encodable k) : Encodable (.LET exp param k)
  | ALLOC {oper : CfgPrim.Alloc .sml} {args : List (Exp .sml)} (lhs : LVar) {k : Stm .sml}
      (hoper : oper.Encodable) (hargs : ListInRange Exp.Encodable args)
      (hk : Encodable k) : Encodable (.ALLOC oper args lhs k)
  | APPLY {fn : Exp .sml} {args : List (Exp .sml)} {tys : List Ty} (hfn : fn.Encodable)
      (hargs : ListInRange Exp.Encodable args) (htys : ListInRange Ty.InRange tys) :
      Encodable (.APPLY fn args tys)
  | THROW {fn : Exp .sml} {args : List (Exp .sml)} {tys : List Ty} (hfn : fn.Encodable)
      (hargs : ListInRange Exp.Encodable args) (htys : ListInRange Ty.InRange tys) :
      Encodable (.THROW fn args tys)
  | GOTO (lab : LVar) {args : List (Exp .sml)} (hargs : ListInRange Exp.Encodable args) :
      Encodable (.GOTO lab args)
  | SWITCH {arg : Exp .sml} {cases : List (Stm .sml)} (harg : arg.Encodable)
      (hlen : cases.length < 2 ^ 30) (hcases : ∀ s ∈ cases, Encodable s) :
      Encodable (.SWITCH arg cases)
  | BRANCH {oper : CfgPrim.Branch .sml} {args : List (Exp .sml)} {prob : Int}
      {trueK falseK : Stm .sml} (hoper : oper.InRange)
      (hargs : ListInRange Exp.Encodable args) (hprob : IntInRange prob)
      (htrue : Encodable trueK) (hfalse : Encodable falseK) :
      Encodable (.BRANCH oper args prob trueK falseK)
  | ARITH {oper : CfgPrim.Arith .sml} {args : List (Exp .sml)} {param : Param}
      {k : Stm .sml} (hoper : oper.InRange) (hargs : ListInRange Exp.Encodable args)
      (hparam : param.Encodable) (hk : Encodable k) : Encodable (.ARITH oper args param k)
  | SETTER {oper : CfgPrim.Setter .sml} {args : List (Exp .sml)} {k : Stm .sml}
      (hoper : oper.InRange) (hargs : ListInRange Exp.Encodable args) (hk : Encodable k) :
      Encodable (.SETTER oper args k)
  | CALLGC {roots : List (Exp .sml)} {newRoots : List LVar} {k : Stm .sml}
      (hroots : ListInRange Exp.Encodable roots) (hnew : newRoots.length < 2 ^ 30)
      (hk : Encodable k) : Encodable (.CALLGC roots newRoots k)
  | RCC (reentrant : Bool) {linkage : List Byte} {proto : CTypes.CProto .sml}
      {args : List (Exp .sml)} {results live : List Param} {k : Stm .sml}
      (hlinkage : linkage.length < 2 ^ 30) (hproto : proto.InRange)
      (hargs : ListInRange Exp.Encodable args) (hresults : ListInRange Param.Encodable results)
      (hlive : ListInRange Param.Encodable live) (hk : Encodable k) :
      Encodable (.RCC reentrant linkage proto args results live k)

/-- The machine integers and lists of a fragment are in range. -/
def Frag.Encodable (f : Frag .sml) : Prop :=
  ListInRange Param.Encodable f.params ∧ f.body.Encodable

/-- The machine integers and lists of a cluster are in range. -/
def Cluster.Encodable (c : Cluster .sml) : Prop :=
  IntInRange c.attrs.alignHP ∧ ListInRange Frag.Encodable c.frags

/-- The machine integers, lists and strings of a compilation unit are in range: there is an
encoding, even if it is not one that is read back. -/
def CompUnit.Encodable (cu : CompUnit .sml) : Prop :=
  cu.srcFile.length < 2 ^ 30 ∧ cu.entry.Encodable ∧ ListInRange Cluster.Encodable cu.fns

/-! ### What is written last -/

/-- The encoding of a type ends in a number of more than one byte. A type without a size is a tag,
and a tag that is missing is noticed. -/
def Ty.endsWide : Ty → Bool
  | .NUMt sz => intWide sz
  | .FLTt sz => intWide sz
  | _ => false

mutual

/-- The encoding of an expression ends in a number of more than one byte: its variable, its size,
or what its last argument ends in. -/
def Exp.endsWide : Exp .sml → Bool
  | .VAR name => lvarWide name
  | .LABEL name => lvarWide name
  | .NUM _ sz => intWide sz
  | .LOOKER _ args => Exp.lastEndsWide args
  | .PURE _ args => Exp.lastEndsWide args
  | .SELECT _ arg => arg.endsWide

/-- `endsWide` of the last expression of a list. An empty list ends in its length, which is
noticed. -/
def Exp.lastEndsWide : List (Exp .sml) → Bool
  | [] => false
  | e :: es => if es.isEmpty then e.endsWide else Exp.lastEndsWide es

end

mutual

/-- The encoding of a statement ends in a number of more than one byte. What counts is the field
that is written last, which for most statements is the statement that follows. -/
def Stm.endsWide : Stm .sml → Bool
  | .LET _ _ k => k.endsWide
  | .ALLOC _ _ _ k => k.endsWide
  | .APPLY _ _ tys => Reads.lastOf Ty.endsWide tys
  | .THROW _ _ tys => Reads.lastOf Ty.endsWide tys
  | .GOTO _ args => Reads.lastOf Exp.endsWide args
  | .SWITCH _ cases => Stm.lastEndsWide cases
  | .BRANCH _ _ _ _ falseK => falseK.endsWide
  | .ARITH _ _ _ k => k.endsWide
  | .SETTER _ _ k => k.endsWide
  | .CALLGC _ _ k => k.endsWide
  | .RCC _ _ _ _ _ _ k => k.endsWide

/-- `endsWide` of the last statement of a list. -/
def Stm.lastEndsWide : List (Stm .sml) → Bool
  | [] => false
  | s :: ss => if ss.isEmpty then s.endsWide else Stm.lastEndsWide ss

end

/-- The encoding of a fragment ends in its body. -/
def Frag.endsWide (f : Frag .sml) : Bool := f.body.endsWide

/-- The encoding of a cluster ends in its last fragment. -/
def Cluster.endsWide (c : Cluster .sml) : Bool := Reads.lastOf Frag.endsWide c.frags

/-- The encoding of a compilation unit ends in its last function. -/
def CompUnit.endsWide (cu : CompUnit .sml) : Bool := Reads.lastOf Cluster.endsWide cu.fns

/-- The recursion over the list is the general function for the last element. -/
theorem Exp.lastEndsWide_eq (es : List (Exp .sml)) :
    Exp.lastEndsWide es = Reads.lastOf Exp.endsWide es := by
  induction es with
  | nil => rfl
  | cons e es ih =>
      cases es with
      | nil => rfl
      | cons e' es =>
          rw [Exp.lastEndsWide, ih, Reads.lastOf, Reads.lastOf, List.getLast?_cons_cons]
          rfl

/-- The same for the cases of a `SWITCH`. -/
theorem Stm.lastEndsWide_eq (ss : List (Stm .sml)) :
    Stm.lastEndsWide ss = Reads.lastOf Stm.endsWide ss := by
  induction ss with
  | nil => rfl
  | cons s ss ih =>
      cases ss with
      | nil => rfl
      | cons s' ss =>
          rw [Stm.lastEndsWide, ih, Reads.lastOf, Reads.lastOf, List.getLast?_cons_cons]
          rfl

end Cfg

namespace CfgFilePickle

open LambdaVar CTypes CfgPrim Cfg

variable {P : ASDLFilePickle} (hP : P.Documented) {N : Nat}
include hP

/-! ### Basic values -/

/-- A tag in front of fields. The made-up byte is the tag `255`, which is no constructor, so a
missing tag is noticed there. -/
theorem reads_tag {β : Type} (n : Nat) (hn : n < 256) {f : Nat → Reader β} {ts : List Byte}
    {last : Bool} {tyName : String} (h : supply.Reads N (f n) ts last)
    (hff : f 255 = invalidTag 255 tyName) :
    supply.Reads (N + 1) (readTag8 >>= f) (P.writeTag8 n ++ ts) last := by
  rw [hP.writeTag8 n hn]
  exact Asdl.reads_tag hn h hff

/-- A tag of a constructor without fields is noticed by its own reader, for the same reason. -/
theorem reads_con {β : Type} (n : Nat) (hn : n < 256) {f : Nat → Reader β} {b : β}
    {tyName : String} (h : f n = pure b) (hff : f 255 = invalidTag 255 tyName) :
    supply.Reads (N + 1) (readTag8 >>= f) (P.writeTag8 n) false := by
  rw [hP.writeTag8 n hn]
  exact Asdl.reads_con hn h hff

/-- The readers of enumerations accept every byte, so a missing one is noticed by the reader that
comes after, if there is one. -/
theorem reads_readEnum {α : Type} {cons : List α} {n : Nat} (hn : n < 256) :
    supply.Reads N (readEnum cons) (P.writeTag8 n) true := by
  rw [hP.writeTag8 n hn]
  exact (reads_getb _).bind_pure.bind_pure

/-- A boolean is noticed, since `0xff` is no boolean. -/
theorem reads_bool (b : Bool) : supply.Reads N readBool (P.writeBool b) false := by
  rw [hP.writeBool b]
  exact (reads_readBool b).mono (Nat.le_succ N)

/-- A machine integer is noticed if it is a single byte, and only then. -/
theorem reads_int {i : Int} (h : IntInRange i) :
    supply.Reads N readInt (P.writeInt i) (intWide i) := by
  rw [hP.writeInt i h.1 h.2]
  exact reads_readInt h.1 h.2

/-- A word is noticed if it is a single byte. -/
theorem reads_uint {n : Nat} (h : n < 2 ^ 30) :
    supply.Reads N readUint (P.writeUInt n) (decide (64 ≤ n)) := by
  rw [hP.writeUInt n h]
  exact reads_readUint h

/-- A string is read to its last byte, and that one may be made up. -/
theorem reads_string {s : List Byte} (h : s.length < 2 ^ 30) :
    supply.Reads N readString (P.writeString s) (Reads.lastOf (fun _ => true) s) := by
  rw [hP.writeString s h]
  exact reads_readString h

/-- An arbitrary-precision integer is noticed always: the made-up byte says that more bytes
follow. -/
theorem reads_integer (i : Int) :
    supply.Reads N readInteger (P.writeInteger i) false := by
  rw [hP.writeInteger i]
  exact reads_readInteger i

/-- A sequence ends as its last element does, and an empty one in its length. -/
theorem reads_seq {α ι : Type} {read : Reader α} {wrFn : ι → List Byte} {last : ι → Bool}
    {xs : List ι} (hlen : xs.length < 2 ^ 30) (hdry : 0 < N → supply.Fails read supply.dry)
    (h : ∀ x ∈ xs, supply.Reads N read (wrFn x) (last x)) :
    supply.Reads N (readSeq read) (P.writeSeq wrFn xs) (Reads.lastOf last xs) := by
  rw [ASDLFilePickle.writeSeq, hP.writeUInt _ hlen]
  exact reads_readSeq hlen hdry h

/-- A sequence whose elements are read whatever values they have in range. -/
theorem reads_list {α ι : Type} {read : Reader α} {wrFn : ι → List Byte} {last : ι → Bool}
    {p : ι → Prop} {xs : List ι} (h : ListInRange p xs)
    (hdry : supply.Fails read supply.dry)
    (hx : ∀ x, p x → supply.Reads N read (wrFn x) (last x)) :
    supply.Reads N (readSeq read) (P.writeSeq wrFn xs) (Reads.lastOf last xs) :=
  reads_seq hP h.1 (fun _ => hdry) fun x hmem => hx x (h.2 x hmem)

/-! ### Enumerations -/

/-- The enumerations follow, and each of them accepts the made-up byte. -/
theorem reads_cInt (a : CInt) : supply.Reads N readCInt (writeCInt P a) true := by
  cases a <;> exact reads_readEnum hP (by decide)

/-- The kind of a number is not noticed by its own reader. -/
theorem reads_numkind (a : Numkind) : supply.Reads N readNumkind (writeNumkind P a) true := by
  cases a <;> exact reads_readEnum hP (by decide)

/-- Nor is a rounding mode. -/
theorem reads_roundingMode (a : RoundingMode) :
    supply.Reads N readRoundingMode (writeRoundingMode P a) true := by
  cases a <;> exact reads_readEnum hP (by decide)

/-- A trapping operator is not noticed. -/
theorem reads_arithop (a : Arithop) : supply.Reads N readArithop (writeArithop P a) true := by
  cases a <;> exact reads_readEnum hP (by decide)

/-- A pure operator is not noticed. -/
theorem reads_pureop (a : Pureop) : supply.Reads N readPureop (writePureop P a) true := by
  cases a <;> exact reads_readEnum hP (by decide)

/-- A comparison of integers is not noticed. -/
theorem reads_cmpop (a : Cmpop) : supply.Reads N readCmpop (writeCmpop P a) true := by
  cases a <;> exact reads_readEnum hP (by decide)

/-- A comparison of floating-point numbers is not noticed. -/
theorem reads_fcmpop (a : Fcmpop) : supply.Reads N readFcmpop (writeFcmpop P a) true := by
  cases a <;> exact reads_readEnum hP (by decide)

/-- The kind of a fragment is not noticed. In a pickle, all of these are followed by a number or a
tag, whose reader then finds the stream at its end. -/
theorem reads_fragKind (a : FragKind) :
    supply.Reads N readFragKind (writeFragKind P a) true := by
  cases a <;> exact reads_readEnum hP (by decide)

/-! ### Primitive operations

No statement ends in one, so how their own last byte is read does not
matter. -/

/-- A field of a raw record ends in its size. -/
theorem reads_rawTy {t : RawTy .sml} (h : t.InRange) :
    supply.Reads N RawTy.read (writeRawTy P t) (intWide t.sz) :=
  (reads_numkind hP t.kind).bind (fun _ => (reads_int hP h).bind_pure)
    fun _ _ => fails_readInt.bind

omit hP in
/-- On a dry stream the first read of a field fails. -/
theorem fails_rawTy : supply.Fails RawTy.read supply.dry := fails_readTag8.bind.bind

/-- A kind and a size, of a memory operation. -/
theorem reads_kind_sz {β : Type} (kind : Numkind) {sz : Int} (h : IntInRange sz)
    (f : Tagged Numkind → Int → β) :
    supply.Reads N (readNumkind >>= fun fkind => readInt >>= fun fsz => pure (f fkind fsz))
      (writeNumkind P kind ++ P.writeInt sz) (intWide sz) :=
  (reads_numkind hP kind).bind (fun _ => (reads_int hP h).bind_pure)
    fun _ _ => fails_readInt.bind

/-- Two sizes, of a conversion. -/
theorem reads_int_int {β : Type} {i j : Int} (hi : IntInRange i) (hj : IntInRange j)
    (f : Int → Int → β) :
    supply.Reads N (readInt >>= fun fi => readInt >>= fun fj => pure (f fi fj))
      (P.writeInt i ++ P.writeInt j) (intWide j) :=
  (reads_int hP hi).bind (fun _ => (reads_int hP hj).bind_pure) fun _ _ => fails_readInt.bind

/-- An optional descriptor is a marker, and an integer if the marker says so. Both are noticed. -/
theorem reads_integerOption (d : Option Int) :
    supply.Reads (N + 1) readIntegerOption (P.writeOption P.writeInteger d) false := by
  cases d with
  | none => exact reads_con hP 0 (by decide) rfl rfl
  | some d => exact reads_tag hP 1 (by decide) (reads_integer hP d).bind_pure rfl

/-- An allocation is read, and its last byte is noticed or not. -/
theorem reads_alloc {a : Alloc .sml} (h : a.Encodable) :
    ∃ last, supply.Reads (N + 1) Alloc.read (writeAlloc P a) last := by
  cases a with
  | SPECIAL => exact ⟨_, reads_con hP 1 (by decide) rfl rfl⟩
  | RECORD desc isMut =>
      exact ⟨_, reads_tag hP 2 (by decide) ((reads_integer hP desc).bind
        (fun _ => (reads_bool hP isMut).bind_pure) fun _ _ => fails_readBool.bind) rfl⟩
  | RAW_RECORD desc align fields =>
      exact ⟨_, reads_tag hP 3 (by decide) ((reads_integer hP desc).bind
        (fun _ => (reads_int hP h.1).bind
          (fun _ => (reads_list hP h.2 fails_rawTy fun t => reads_rawTy hP).bind_pure)
          fun _ _ => (fails_readSeq _).bind)
        fun _ _ => fails_readInt.bind) rfl⟩
  | RAW_ALLOC desc align len =>
      exact ⟨_, reads_tag hP 4 (by decide)
        (((reads_integerOption hP desc).mono (Nat.le_succ N)).bind
          (fun _ => reads_int_int hP h.1 h.2 _) fun _ _ => fails_readInt.bind) rfl⟩

/-- A trapping operation. -/
theorem reads_arith {a : Arith .sml} (h : a.InRange) :
    ∃ last, supply.Reads (N + 1) Arith.read (writeArith P a) last := by
  cases a with
  | ARITH oper sz =>
      exact ⟨_, reads_tag hP 1 (by decide) ((reads_arithop hP oper).bind
        (fun _ => (reads_int hP h).bind_pure) fun _ _ => fails_readInt.bind) rfl⟩
  | FLOAT_TO_INT mode fromSz toSz =>
      exact ⟨_, reads_tag hP 2 (by decide) ((reads_roundingMode hP mode).bind
        (fun _ => reads_int_int hP h.1 h.2 _) fun _ _ => fails_readInt.bind) rfl⟩

/-- A pure operation. -/
theorem reads_pure {a : CfgPrim.Pure .sml} (h : a.InRange) :
    ∃ last, supply.Reads (N + 1) CfgPrim.Pure.read (writePure P a) last := by
  cases a with
  | PURE_ARITH oper sz =>
      exact ⟨_, reads_tag hP 1 (by decide) ((reads_pureop hP oper).bind
        (fun _ => (reads_int hP h).bind_pure) fun _ _ => fails_readInt.bind) rfl⟩
  | EXTEND signed fromSz toSz =>
      exact ⟨_, reads_tag hP 2 (by decide) ((reads_bool hP signed).bind
        (fun _ => reads_int_int hP h.1 h.2 _) fun _ _ => fails_readInt.bind) rfl⟩
  | TRUNC fromSz toSz => exact ⟨_, reads_tag hP 3 (by decide) (reads_int_int hP h.1 h.2 _) rfl⟩
  | INT_TO_FLOAT fromSz toSz =>
      exact ⟨_, reads_tag hP 4 (by decide) (reads_int_int hP h.1 h.2 _) rfl⟩
  | FLOAT_TO_BITS sz => exact ⟨_, reads_tag hP 5 (by decide) (reads_int hP h).bind_pure rfl⟩
  | BITS_TO_FLOAT sz => exact ⟨_, reads_tag hP 6 (by decide) (reads_int hP h).bind_pure rfl⟩
  | PURE_SUBSCRIPT => exact ⟨_, reads_con hP 7 (by decide) rfl rfl⟩
  | PURE_RAW_SUBSCRIPT kind sz =>
      exact ⟨_, reads_tag hP 8 (by decide) (reads_kind_sz hP kind h _) rfl⟩
  | RAW_SELECT kind sz offset =>
      exact ⟨_, reads_tag hP 9 (by decide) ((reads_numkind hP kind).bind
        (fun _ => reads_int_int hP h.1 h.2 _) fun _ _ => fails_readInt.bind) rfl⟩

/-- A looker. -/
theorem reads_looker {a : Looker .sml} (h : a.InRange) :
    ∃ last, supply.Reads (N + 1) Looker.read (writeLooker P a) last := by
  cases a with
  | DEREF => exact ⟨_, reads_con hP 1 (by decide) rfl rfl⟩
  | SUBSCRIPT => exact ⟨_, reads_con hP 2 (by decide) rfl rfl⟩
  | RAW_SUBSCRIPT kind sz =>
      exact ⟨_, reads_tag hP 3 (by decide) (reads_kind_sz hP kind h _) rfl⟩
  | RAW_LOAD kind sz => exact ⟨_, reads_tag hP 4 (by decide) (reads_kind_sz hP kind h _) rfl⟩
  | GET_HDLR => exact ⟨_, reads_con hP 5 (by decide) rfl rfl⟩
  | GET_VAR => exact ⟨_, reads_con hP 6 (by decide) rfl rfl⟩

/-- A setter. -/
theorem reads_setter {a : Setter .sml} (h : a.InRange) :
    ∃ last, supply.Reads (N + 1) Setter.read (writeSetter P a) last := by
  cases a with
  | UNBOXED_UPDATE => exact ⟨_, reads_con hP 1 (by decide) rfl rfl⟩
  | UPDATE => exact ⟨_, reads_con hP 2 (by decide) rfl rfl⟩
  | UNBOXED_ASSIGN => exact ⟨_, reads_con hP 3 (by decide) rfl rfl⟩
  | ASSIGN => exact ⟨_, reads_con hP 4 (by decide) rfl rfl⟩
  | RAW_UPDATE kind sz => exact ⟨_, reads_tag hP 5 (by decide) (reads_kind_sz hP kind h _) rfl⟩
  | RAW_STORE kind sz => exact ⟨_, reads_tag hP 6 (by decide) (reads_kind_sz hP kind h _) rfl⟩
  | SET_HDLR => exact ⟨_, reads_con hP 7 (by decide) rfl rfl⟩
  | SET_VAR => exact ⟨_, reads_con hP 8 (by decide) rfl rfl⟩

/-- The test of a branch. -/
theorem reads_branch {a : Branch .sml} (h : a.InRange) :
    ∃ last, supply.Reads (N + 1) Branch.read (writeBranch P a) last := by
  cases a with
  | CMP oper signed sz =>
      exact ⟨_, reads_tag hP 1 (by decide) ((reads_cmpop hP oper).bind
        (fun _ => (reads_bool hP signed).bind (fun _ => (reads_int hP h).bind_pure)
          fun _ _ => fails_readInt.bind)
        fun _ _ => fails_readBool.bind) rfl⟩
  | FCMP oper sz =>
      exact ⟨_, reads_tag hP 2 (by decide) ((reads_fcmpop hP oper).bind
        (fun _ => (reads_int hP h).bind_pure) fun _ _ => fails_readInt.bind) rfl⟩
  | FSGN sz => exact ⟨_, reads_tag hP 3 (by decide) (reads_int hP h).bind_pure rfl⟩
  | PEQL => exact ⟨_, reads_con hP 4 (by decide) rfl rfl⟩
  | PNEQ => exact ⟨_, reads_con hP 5 (by decide) rfl rfl⟩
  | LIMIT amt => exact ⟨_, reads_tag hP 6 (by decide) (reads_uint hP h).bind_pure rfl⟩

/-! ### Types and parameters -/

/-- A type of the CFG. This is the last thing in many statements, so it is said exactly when a
missing byte goes unnoticed. -/
theorem reads_ty {t : Ty} (h : t.InRange) :
    supply.Reads N Ty.read (writeTy P t) t.endsWide := by
  refine Reads.mono (M := N + 1) ?_ (Nat.le_succ N)
  cases t with
  | LABt => exact reads_con hP 1 (by decide) rfl rfl
  | PTRt => exact reads_con hP 2 (by decide) rfl rfl
  | TAGt => exact reads_con hP 3 (by decide) rfl rfl
  | NUMt sz => exact reads_tag hP 4 (by decide) (reads_int hP h).bind_pure rfl
  | FLTt sz => exact reads_tag hP 5 (by decide) (reads_int hP h).bind_pure rfl

omit hP in
/-- On a dry stream the first read of a type fails. -/
theorem fails_ty : supply.Fails Ty.read supply.dry := fails_readTag8.bind

/-- A parameter ends in its type. -/
theorem reads_param {p : Param} (h : p.Encodable) :
    supply.Reads N Param.read (writeParam P p) p.ty.endsWide :=
  (reads_readLvar p.name).bind (fun _ => (reads_ty hP h).bind_pure) fun _ _ => fails_ty.bind

omit hP in
/-- On a dry stream the first read of a parameter fails. -/
theorem fails_param : supply.Fails Param.read supply.dry := fails_readLvar.bind

/-! ### C types -/

omit hP in
/-- A reader with fuel reads a tag first, which fails on a dry stream. Without fuel it would stop
for want of it, which is not an error that reports the input. -/
theorem fails_cType {fuel : Nat} (h : 0 < fuel) : supply.Fails (CType.read fuel) supply.dry := by
  cases fuel with
  | zero => exact absurd h (Nat.lt_irrefl 0)
  | succ fuel => exact fails_readTag8.bind

/-- A sequence of C types, each of which is read somehow. What the last byte does is not needed:
no statement ends in a C type. -/
theorem reads_cTypes {fuel : Nat} {ts : List (CType .sml)} (hlen : ts.length < 2 ^ 30)
    (h : ∀ t ∈ ts, ∃ last, supply.Reads fuel (CType.read fuel) (writeCType P t) last) :
    ∃ last, supply.Reads fuel (readSeq (CType.read fuel)) (P.writeSeq (writeCType P) ts)
      last := by
  choose! last hlast using h
  exact ⟨_, reads_seq hP hlen fails_cType hlast⟩

/-- A C type in range, by induction on its depth. -/
theorem reads_cType {t : CType .sml} (h : t.InRange) (fuel : Nat) :
    ∃ last, supply.Reads fuel (CType.read fuel) (writeCType P t) last := by
  have hseq : ∀ ts : List (CType .sml), P.writeUInt ts.length ++ writeCTypes P ts
      = P.writeSeq (writeCType P) ts := fun ts => by rw [writeCTypes_eq]; rfl
  induction fuel generalizing t with
  | zero => exact ⟨false, Reads.zero _ .C_void nofun⟩
  | succ fuel ih =>
      cases h with
      | C_void => exact ⟨_, reads_con hP 1 (by decide) rfl rfl⟩
      | C_float => exact ⟨_, reads_con hP 2 (by decide) rfl rfl⟩
      | C_double => exact ⟨_, reads_con hP 3 (by decide) rfl rfl⟩
      | C_long_double => exact ⟨_, reads_con hP 4 (by decide) rfl rfl⟩
      | C_unsigned ty => exact ⟨_, reads_tag hP 5 (by decide) (reads_cInt hP ty).bind_pure rfl⟩
      | C_signed ty => exact ⟨_, reads_tag hP 6 (by decide) (reads_cInt hP ty).bind_pure rfl⟩
      | C_PTR => exact ⟨_, reads_con hP 7 (by decide) rfl rfl⟩
      | C_ARRAY hty hlen =>
          obtain ⟨_, hr⟩ := ih hty
          exact ⟨_, reads_tag hP 8 (by decide) (hr.bind (fun _ => (reads_int hP hlen).bind_pure)
            fun _ _ => fails_readInt.bind) rfl⟩
      | C_STRUCT hlen hfields =>
          obtain ⟨_, hr⟩ := reads_cTypes hP hlen fun t ht => ih (hfields t ht)
          rw [writeCType, hseq]
          exact ⟨_, reads_tag hP 9 (by decide) hr.bind_pure rfl⟩
      | C_UNION hlen hfields =>
          obtain ⟨_, hr⟩ := reads_cTypes hP hlen fun t ht => ih (hfields t ht)
          rw [writeCType, hseq]
          exact ⟨_, reads_tag hP 10 (by decide) hr.bind_pure rfl⟩

/-- A prototype, which has a fixed number of fields. -/
theorem reads_cProto {p : CProto .sml} (h : p.InRange) (fuel : Nat) :
    ∃ last, supply.Reads fuel (CProto.read fuel) (writeCProto P p) last := by
  obtain ⟨hconv, hret, hparams⟩ := h
  obtain ⟨_, hr⟩ := reads_cType hP hret fuel
  obtain ⟨_, hps⟩ := reads_cTypes hP hparams.1 fun t ht => reads_cType hP (hparams.2 t ht) fuel
  exact ⟨_, (reads_string hP hconv).bind
    (fun _ => hr.bind (fun _ => hps.bind_pure) fun _ _ => (fails_readSeq _).bind)
    fun hpos _ => (fails_cType hpos).bind⟩

omit hP in
/-- On a dry stream the name of the convention fails already. -/
theorem fails_cProto (fuel : Nat) : supply.Fails (CProto.read fuel) supply.dry :=
  fails_readString.bind

/-! ### Expressions and statements -/

omit hP in
/-- An expression, as a C type. -/
theorem fails_exp {fuel : Nat} (h : 0 < fuel) : supply.Fails (Exp.read fuel) supply.dry := by
  cases fuel with
  | zero => exact absurd h (Nat.lt_irrefl 0)
  | succ fuel => exact fails_readTag8.bind

omit hP in
/-- And a statement. -/
theorem fails_stm {fuel : Nat} (h : 0 < fuel) : supply.Fails (Stm.read fuel) supply.dry := by
  cases fuel with
  | zero => exact absurd h (Nat.lt_irrefl 0)
  | succ fuel => exact fails_readTag8.bind

/-- Every encoding that starts with a tag has a byte, so that something can be missing. -/
theorem writeTag8_append_ne_nil {n : Nat} (hn : n < 256) (ts : List Byte) :
    P.writeTag8 n ++ ts ≠ [] := by
  rw [hP.writeTag8 n hn]
  exact List.cons_ne_nil _ _

/-- Every expression starts with a tag. -/
theorem writeExp_ne_nil (e : Exp .sml) : writeExp P e ≠ [] := by
  cases e <;> exact writeTag8_append_ne_nil hP (by decide) _

/-- Every statement starts with a tag. -/
theorem writeStm_ne_nil (s : Stm .sml) : writeStm P s ≠ [] := by
  cases s <;> exact writeTag8_append_ne_nil hP (by decide) _

/-- An expression, by induction on the fuel: the bound on the prefixes goes down by the tag, as
the fuel does. -/
theorem reads_exp {e : Exp .sml} (h : e.Encodable) (fuel : Nat) :
    supply.Reads fuel (Exp.read fuel) (writeExp P e) e.endsWide := by
  have hseq : ∀ es : List (Exp .sml), P.writeUInt es.length ++ writeExps P es
      = P.writeSeq (writeExp P) es := fun es => by rw [writeExps_eq]; rfl
  induction fuel generalizing e with
  | zero => exact Reads.zero _ (.VAR 0) fun _ => writeExp_ne_nil hP e
  | succ fuel ih =>
      have hargs : ∀ {args : List (Exp .sml)}, args.length < 2 ^ 30 →
          (∀ e ∈ args, e.Encodable) →
          supply.Reads fuel (readSeq (Exp.read fuel)) (P.writeSeq (writeExp P) args)
            (Reads.lastOf Exp.endsWide args) := fun hlen hargs =>
        reads_seq hP hlen fails_exp fun e he => ih (hargs e he)
      cases h with
      | VAR name => exact reads_tag hP 1 (by decide) (reads_readLvar name).bind_pure rfl
      | LABEL name => exact reads_tag hP 2 (by decide) (reads_readLvar name).bind_pure rfl
      | NUM iv hsz =>
          exact reads_tag hP 3 (by decide) ((reads_integer hP iv).bind
            (fun _ => (reads_int hP hsz).bind_pure) fun _ _ => fails_readInt.bind) rfl
      | LOOKER hoper hlen hes =>
          obtain ⟨_, hr⟩ := reads_looker hP (N := fuel) hoper
          rw [writeExp, hseq, Exp.endsWide, Exp.lastEndsWide_eq]
          exact reads_tag hP 4 (by decide) ((hr.mono (Nat.le_succ fuel)).bind
            (fun _ => (hargs hlen hes).bind_pure) fun _ _ => (fails_readSeq _).bind) rfl
      | PURE hoper hlen hes =>
          obtain ⟨_, hr⟩ := reads_pure hP (N := fuel) hoper
          rw [writeExp, hseq, Exp.endsWide, Exp.lastEndsWide_eq]
          exact reads_tag hP 5 (by decide) ((hr.mono (Nat.le_succ fuel)).bind
            (fun _ => (hargs hlen hes).bind_pure) fun _ _ => (fails_readSeq _).bind) rfl
      | SELECT hidx harg =>
          exact reads_tag hP 6 (by decide) ((reads_int hP hidx).bind
            (fun _ => (ih harg).bind_pure) fun hpos _ => (fails_exp hpos).bind) rfl

/-- The arguments of a statement, which end as the last of them does. -/
theorem reads_args {es : List (Exp .sml)} (h : ListInRange Exp.Encodable es) (fuel : Nat) :
    supply.Reads fuel (readSeq (Exp.read fuel)) (P.writeSeq (writeExp P) es)
      (Reads.lastOf Exp.endsWide es) :=
  reads_seq hP h.1 fails_exp fun e he => reads_exp hP (h.2 e he) fuel

/-- A statement, by induction on the fuel. Each field is followed by another that fails on a dry
stream, so only what is written last can go unnoticed. -/
theorem reads_stm {s : Stm .sml} (h : s.Encodable) (fuel : Nat) :
    supply.Reads fuel (Stm.read fuel) (writeStm P s) s.endsWide := by
  induction fuel generalizing s with
  | zero => exact Reads.zero _ (.GOTO 0 []) fun _ => writeStm_ne_nil hP s
  | succ fuel ih =>
      cases h with
      | LET hexp hparam hk =>
          refine reads_tag hP 1 (by decide) ((reads_exp hP hexp fuel).bind (fun _ => ?_)
            fun _ _ => fails_param.bind) rfl
          exact (reads_param hP hparam).bind (fun _ => (ih hk).bind_pure)
            fun hpos _ => (fails_stm hpos).bind
      | ALLOC lhs hoper hargs hk =>
          obtain ⟨_, hr⟩ := reads_alloc hP (N := fuel) hoper
          refine reads_tag hP 2 (by decide) ((hr.mono (Nat.le_succ fuel)).bind (fun _ => ?_)
            fun _ _ => (fails_readSeq _).bind) rfl
          refine (reads_args hP hargs fuel).bind (fun _ => ?_) fun _ _ => fails_readLvar.bind
          exact (reads_readLvar lhs).bind (fun _ => (ih hk).bind_pure)
            fun hpos _ => (fails_stm hpos).bind
      | APPLY hfn hargs htys =>
          refine reads_tag hP 3 (by decide) ((reads_exp hP hfn fuel).bind (fun _ => ?_)
            fun _ _ => (fails_readSeq _).bind) rfl
          exact (reads_args hP hargs fuel).bind
            (fun _ => (reads_list hP htys fails_ty fun t => reads_ty hP).bind_pure)
            fun _ _ => (fails_readSeq _).bind
      | THROW hfn hargs htys =>
          refine reads_tag hP 4 (by decide) ((reads_exp hP hfn fuel).bind (fun _ => ?_)
            fun _ _ => (fails_readSeq _).bind) rfl
          exact (reads_args hP hargs fuel).bind
            (fun _ => (reads_list hP htys fails_ty fun t => reads_ty hP).bind_pure)
            fun _ _ => (fails_readSeq _).bind
      | GOTO lab hargs =>
          exact reads_tag hP 5 (by decide) ((reads_readLvar lab).bind
            (fun _ => (reads_args hP hargs fuel).bind_pure)
            fun _ _ => (fails_readSeq _).bind) rfl
      | @SWITCH arg cases harg hlen hcases =>
          have hseq : P.writeUInt cases.length ++ writeStms P cases
              = P.writeSeq (writeStm P) cases := by rw [writeStms_eq]; rfl
          rw [writeStm, hseq, Stm.endsWide, Stm.lastEndsWide_eq]
          refine reads_tag hP 6 (by decide) ((reads_exp hP harg fuel).bind (fun _ => ?_)
            fun _ _ => (fails_readSeq _).bind) rfl
          exact (reads_seq hP hlen fails_stm fun s hs => ih (hcases s hs)).bind_pure
      | BRANCH hoper hargs hprob htrue hfalse =>
          obtain ⟨_, hr⟩ := reads_branch hP (N := fuel) hoper
          refine reads_tag hP 7 (by decide) ((hr.mono (Nat.le_succ fuel)).bind (fun _ => ?_)
            fun _ _ => (fails_readSeq _).bind) rfl
          refine (reads_args hP hargs fuel).bind (fun _ => ?_) fun _ _ => fails_readInt.bind
          refine (reads_int hP hprob).bind (fun _ => ?_) fun hpos _ => (fails_stm hpos).bind
          exact (ih htrue).bind (fun _ => (ih hfalse).bind_pure)
            fun hpos _ => (fails_stm hpos).bind
      | ARITH hoper hargs hparam hk =>
          obtain ⟨_, hr⟩ := reads_arith hP (N := fuel) hoper
          refine reads_tag hP 8 (by decide) ((hr.mono (Nat.le_succ fuel)).bind (fun _ => ?_)
            fun _ _ => (fails_readSeq _).bind) rfl
          refine (reads_args hP hargs fuel).bind (fun _ => ?_) fun _ _ => fails_param.bind
          exact (reads_param hP hparam).bind (fun _ => (ih hk).bind_pure)
            fun hpos _ => (fails_stm hpos).bind
      | SETTER hoper hargs hk =>
          obtain ⟨_, hr⟩ := reads_setter hP (N := fuel) hoper
          refine reads_tag hP 9 (by decide) ((hr.mono (Nat.le_succ fuel)).bind (fun _ => ?_)
            fun _ _ => (fails_readSeq _).bind) rfl
          exact (reads_args hP hargs fuel).bind (fun _ => (ih hk).bind_pure)
            fun hpos _ => (fails_stm hpos).bind
      | CALLGC hroots hnew hk =>
          refine reads_tag hP 10 (by decide) ((reads_args hP hroots fuel).bind (fun _ => ?_)
            fun _ _ => (fails_readSeq _).bind) rfl
          exact (reads_seq hP hnew (fun _ => fails_readLvar) fun x _ => reads_readLvar x).bind
            (fun _ => (ih hk).bind_pure) fun hpos _ => (fails_stm hpos).bind
      | RCC reentrant hlinkage hproto hargs hresults hlive hk =>
          obtain ⟨_, hr⟩ := reads_cProto hP hproto fuel
          refine reads_tag hP 11 (by decide) ((reads_bool hP reentrant).bind (fun _ => ?_)
            fun _ _ => fails_readString.bind) rfl
          refine (reads_string hP hlinkage).bind (fun _ => ?_)
            fun _ _ => (fails_cProto fuel).bind
          refine hr.bind (fun _ => ?_) fun _ _ => (fails_readSeq _).bind
          refine (reads_args hP hargs fuel).bind (fun _ => ?_)
            fun _ _ => (fails_readSeq _).bind
          refine (reads_list hP hresults fails_param fun p => reads_param hP).bind
            (fun _ => ?_) fun _ _ => (fails_readSeq _).bind
          exact (reads_list hP hlive fails_param fun p => reads_param hP).bind
            (fun _ => (ih hk).bind_pure) fun hpos _ => (fails_stm hpos).bind

/-! ### Clusters and compilation units -/

/-- A fragment ends in its body. -/
theorem reads_frag {fr : Frag .sml} (h : fr.Encodable) (fuel : Nat) :
    supply.Reads fuel (Frag.read fuel) (writeFrag P fr) fr.endsWide := by
  refine (reads_fragKind hP fr.kind).bind (fun _ => ?_) fun _ _ => fails_readLvar.bind
  refine (reads_readLvar fr.lab).bind (fun _ => ?_) fun _ _ => (fails_readSeq _).bind
  exact (reads_list hP h.1 fails_param fun p => reads_param hP).bind
    (fun _ => (reads_stm hP h.2 fuel).bind_pure) fun hpos _ => (fails_stm hpos).bind

omit hP in
/-- On a dry stream the kind of a fragment fails. -/
theorem fails_frag (fuel : Nat) : supply.Fails (Frag.read fuel) supply.dry :=
  fails_readTag8.bind.bind

/-- The attributes end in a boolean. -/
theorem reads_attrs {a : Attrs} (h : IntInRange a.alignHP) :
    supply.Reads N Attrs.read (writeAttrs P a) false := by
  refine (reads_int hP h).bind (fun _ => ?_) fun _ _ => fails_readBool.bind
  refine (reads_bool hP a.needsBasePtr).bind (fun _ => ?_) fun _ _ => fails_readBool.bind
  exact (reads_bool hP a.hasTrapArith).bind (fun _ => (reads_bool hP a.hasRCC).bind_pure)
    fun _ _ => fails_readBool.bind

/-- A cluster ends in its last fragment. -/
theorem reads_cluster {c : Cluster .sml} (h : c.Encodable) (fuel : Nat) :
    supply.Reads fuel (Cluster.read fuel) (writeCluster P c) c.endsWide :=
  (reads_attrs hP h.1).bind
    (fun _ => (reads_list hP h.2 (fails_frag fuel) fun _ hfr =>
      reads_frag hP hfr fuel).bind_pure)
    fun _ _ => (fails_readSeq _).bind

omit hP in
/-- On a dry stream the attributes fail. -/
theorem fails_cluster (fuel : Nat) : supply.Fails (Cluster.read fuel) supply.dry :=
  fails_readInt.bind.bind

/-- The fields of a compilation unit, read with a given fuel. A unit without further functions
ends in the length of their list. -/
theorem reads_compUnit {cu : CompUnit .sml} (h : cu.Encodable) (fuel : Nat) :
    supply.Reads fuel
      (do
        let fsrcFile ← readString
        let fentry ← Cluster.read fuel
        let ffns ← readSeq (Cluster.read fuel)
        pure ({ srcFile := fsrcFile, entry := fentry, fns := ffns } : CompUnit .cpp))
      (writeCompUnit P cu) cu.endsWide := by
  obtain ⟨hsrc, hentry, hfns⟩ := h
  refine (reads_string hP hsrc).bind (fun _ => ?_) fun _ _ => (fails_cluster fuel).bind
  exact (reads_cluster hP hentry fuel).bind
    (fun _ => (reads_list hP hfns (fails_cluster fuel) fun _ hc =>
      reads_cluster hP hc fuel).bind_pure)
    fun _ _ => (fails_readSeq _).bind

omit hP in
/-- The reader of a compilation unit measures the stream first, and gives its length as fuel. This
is the model's own: the code recurses on its stack. -/
theorem CompUnit.run_read (is : Instream) :
    CompUnit.read.run is = StateT.run (do
      let fsrcFile ← readString
      let fentry ← Cluster.read (is.bytes.length + 1)
      let ffns ← readSeq (Cluster.read (is.bytes.length + 1))
      pure ({ srcFile := fsrcFile, entry := fentry, fns := ffns } : CompUnit .cpp)) is :=
  Decoder.run_get_bind _ is

/-- The reader of a compilation unit in front of too few bytes. There are fewer bytes than the
bound that goes with the fuel, so what was shown of the fields applies. -/
theorem compUnit_cut {cu : CompUnit .sml} (h : cu.Encodable) {p : List Byte}
    (hp : p <+: writeCompUnit P cu) (hlen : p.length < (writeCompUnit P cu).length) :
    if cu.endsWide = true ∧ p.length + 1 = (writeCompUnit P cu).length then
      ∃ a, CompUnit.read.run (place p) = .ok (a, supply.dry)
    else supply.Fails CompUnit.read (place p) := by
  have hcut := (reads_compUnit hP h (p.length + 1)).cut p hp hlen (Nat.lt_succ_self _)
  have hplace : supply.place p = place p := rfl
  unfold Supply.Fails at hcut ⊢
  rw [hplace] at hcut
  rw [CompUnit.run_read, show (place p).bytes = p from rfl]
  exact hcut

omit hP in
/-- In front of a proper prefix of what the front end writes, the code
generator reports an invalid stream or tag, unless the unit ends in a number
of more than one byte and only the last byte is missing: then it returns a
tree whose last number has a byte that was not there. -/
theorem readCompUnit_prefix_iff (P : ASDLFilePickle) (hP : P.Documented)
    (cu : CompUnit .sml) (h : cu.Encodable) (p : List Byte) (hp : p <+: writeCompUnit P cu)
    (hlen : p.length < (writeCompUnit P cu).length) :
    (∃ e, CompUnit.read.run (place p) = .error e ∧ e ≠ .outOfFuel) ↔
      ¬ (cu.endsWide = true ∧ p.length + 1 = (writeCompUnit P cu).length) := by
  have hcut := compUnit_cut hP h hp hlen
  constructor
  · rintro ⟨e, herr, -⟩ hlast
    rw [if_pos hlast] at hcut
    obtain ⟨a, hrun⟩ := hcut
    rw [herr] at hrun
    cases hrun
  · intro hlast
    rw [if_neg hlast] at hcut
    obtain ⟨e, he, hrun⟩ := hcut
    exact ⟨e, hrun, he⟩

omit hP

/-- A compilation unit whose last field is the size of a number type. -/
def wideUnit : CompUnit .sml :=
  { srcFile := [0x61]
    entry := { attrs := ⟨0, false, false, false⟩, frags := [] }
    fns :=
      [{ attrs := ⟨0, false, false, false⟩
         frags :=
           [{ kind := .STD_FUN, lab := 7, params := [⟨3, .PTRt⟩, ⟨300, .NUMt 64⟩],
              body := .THROW (.VAR 3) [.VAR 300] [.NUMt 64] }] }] }

/-- The numbers of `wideUnit` have encodings. -/
theorem encodable_wideUnit : wideUnit.Encodable := by
  have hbody : Stm.Encodable (.THROW (.VAR 3) [.VAR 300] [.NUMt 64]) := by
    refine .THROW (.VAR 3) ⟨by decide, ?_⟩ ⟨by decide, ?_⟩
    · intro e he
      rw [List.mem_singleton.mp he]
      exact .VAR 300
    · intro t ht
      rw [List.mem_singleton.mp ht]
      exact show IntInRange 64 by decide
  refine ⟨by decide, ⟨by decide, by decide, nofun⟩, by decide, ?_⟩
  intro c hc
  rw [List.mem_singleton.mp hc]
  refine ⟨by decide, by decide, ?_⟩
  intro fr hfr
  rw [List.mem_singleton.mp hfr]
  refine ⟨⟨by decide, ?_⟩, hbody⟩
  intro q hq
  simp only [List.mem_cons, List.not_mem_nil, or_false] at hq
  cases hq with
  | inl hq => rw [hq]; exact trivial
  | inr hq => rw [hq]; exact show IntInRange 64 by decide

/-- The encoding of `wideUnit` has further bytes after its two of the file
name. -/
theorem length_wideUnit : 2 < (writeCompUnit ASDLFilePickle.likeCpp wideUnit).length := by
  rw [writeCompUnit, writeCluster, writeAttrs]
  simp only [List.length_append]
  have h2 : (ASDLFilePickle.likeCpp.writeString wideUnit.srcFile).length = 2 := by decide
  have h1 : (ASDLFilePickle.likeCpp.writeInt wideUnit.entry.attrs.alignHP).length = 1 := by
    decide
  omega

/-- Without its last two bytes `wideUnit` is reported. -/
theorem readCompUnit_prefix_wideUnit :
    ∃ e, CompUnit.read.run
      (place (writeCompUnit ASDLFilePickle.likeCpp wideUnit).dropLast.dropLast) = .error e ∧
        e ≠ .outOfFuel := by
  have h2 := length_wideUnit
  have hlen := (writeCompUnit ASDLFilePickle.likeCpp wideUnit).length_dropLast
  have hlen' := (writeCompUnit ASDLFilePickle.likeCpp wideUnit).dropLast.length_dropLast
  exact (readCompUnit_prefix_iff _ ASDLFilePickle.documented_likeCpp wideUnit
    encodable_wideUnit _ ((List.dropLast_prefix _).trans (List.dropLast_prefix _))
    (by omega)).mpr fun hlast => by omega

/-- Without its last byte `wideUnit` is accepted. -/
theorem readCompUnit_dropLast_wideUnit :
    wideUnit.Encodable ∧
    (writeCompUnit ASDLFilePickle.likeCpp wideUnit).dropLast
      <+: writeCompUnit ASDLFilePickle.likeCpp wideUnit ∧
    (writeCompUnit ASDLFilePickle.likeCpp wideUnit).dropLast.length
      < (writeCompUnit ASDLFilePickle.likeCpp wideUnit).length ∧
    ∃ a, CompUnit.read.run
      (place (writeCompUnit ASDLFilePickle.likeCpp wideUnit).dropLast) = .ok a := by
  have h2 := length_wideUnit
  have hlen := (writeCompUnit ASDLFilePickle.likeCpp wideUnit).length_dropLast
  have hcut := compUnit_cut ASDLFilePickle.documented_likeCpp encodable_wideUnit
    (List.dropLast_prefix _) (by omega)
  rw [if_pos ⟨by decide, by omega⟩] at hcut
  obtain ⟨a, hrun⟩ := hcut
  exact ⟨encodable_wideUnit, List.dropLast_prefix _, by omega, _, hrun⟩

end CfgFilePickle

end SmlnjCfg
