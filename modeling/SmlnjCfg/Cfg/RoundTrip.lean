import SmlnjCfg.Cfg.Image
import SmlnjCfg.Cfg.Pickle
import SmlnjCfg.Cfg.Unpickle

/-!
# `SmlnjCfg.Cfg.RoundTrip`: what the front end writes is what is read

The writers of `Cfg.Pickle` and the readers of `Cfg.Unpickle` are two
independent tables of tags and field orders. The theorems say that they
agree, type by type, and end in the whole format:

* `decodes_alloc`, …, `decodes_branch`: the primitive operations.
* `decodes_exp`, `decodes_stm`: the recursive types, by induction on the
  tree in range.
* `readCompUnit_writeCompUnit`: the compilation unit.

The recursive readers are given as much fuel as there are bytes to read; a
tag in front of every field leaves one less for the fields.
-/

set_option autoImplicit false

namespace SmlnjCfg.CfgFilePickle

open Asdl LambdaVar CTypes CfgPrim Cfg

variable {P : ASDLFilePickle} (hP : P.Documented)
include hP

/-! ### Enumerations -/

/-- An enumeration is read back when both tables give it the same number. The reader casts the tag
to the enumeration, so nothing more has to be checked, and nothing more is. -/
theorem decodes_readEnum {α : Type} {cons : List α} {a : α} {n : Nat} (hn : n < 256)
    (h : Tagged.ofTag cons n = .con a) :
    Decodes place (readEnum cons) (P.writeTag8 n) (.con a) := by
  rw [← h]
  exact (hP.decodes_readTag8 hn).bind_pure

/-- Both sides number the C integer types alike. -/
theorem decodes_cInt (a : CInt) : Decodes place readCInt (writeCInt P a) (.con a) := by
  cases a <;> exact decodes_readEnum hP (by decide) rfl

/-- The two kinds of numbers have the same numbers on both sides. -/
theorem decodes_numkind (a : Numkind) :
    Decodes place readNumkind (writeNumkind P a) (.con a) := by
  cases a <;> exact decodes_readEnum hP (by decide) rfl

/-- The rounding modes have the same numbers on both sides. -/
theorem decodes_roundingMode (a : RoundingMode) :
    Decodes place readRoundingMode (writeRoundingMode P a) (.con a) := by
  cases a <;> exact decodes_readEnum hP (by decide) rfl

/-- The trapping operators have the same numbers. -/
theorem decodes_arithop (a : Arithop) :
    Decodes place readArithop (writeArithop P a) (.con a) := by
  cases a <;> exact decodes_readEnum hP (by decide) rfl

/-- All 28 pure operators have the same numbers. A constructor that one side has and the other has
not would show here. -/
theorem decodes_pureop (a : Pureop) :
    Decodes place readPureop (writePureop P a) (.con a) := by
  cases a <;> exact decodes_readEnum hP (by decide) rfl

/-- The comparisons of integers have the same numbers. -/
theorem decodes_cmpop (a : Cmpop) : Decodes place readCmpop (writeCmpop P a) (.con a) := by
  cases a <;> exact decodes_readEnum hP (by decide) rfl

/-- The comparisons of floating-point numbers have the same numbers. -/
theorem decodes_fcmpop (a : Fcmpop) :
    Decodes place readFcmpop (writeFcmpop P a) (.con a) := by
  cases a <;> exact decodes_readEnum hP (by decide) rfl

/-- The kinds of fragments have the same numbers. -/
theorem decodes_fragKind (a : FragKind) :
    Decodes place readFragKind (writeFragKind P a) (.con a) := by
  cases a <;> exact decodes_readEnum hP (by decide) rfl

/-! ### Basic values in range -/

/-- A machine integer in range. -/
theorem decodes_int {i : Int} (h : IntInRange i) : Decodes place readInt (P.writeInt i) i :=
  hP.decodes_readInt h.1 h.2

omit hP in
/-- A lambda variable in range. It is not written through the pickler's structure but by a writer
of its own. -/
theorem decodes_lvar {x : LVar} (h : LvarInRange x) :
    Decodes place readLvar (writeLvar x) x :=
  decodes_readLvar_of_lt h.1 h.2

/-- A list that is not too long, each element of which is read back. -/
theorem decodes_list {α β : Type} {read : Reader β} {wrFn : α → List Byte} {f : α → β}
    {p : α → Prop} {xs : List α} (h : ListInRange p xs)
    (hx : ∀ x, p x → Decodes place read (wrFn x) (f x)) :
    Decodes place (readSeq read) (P.writeSeq wrFn xs) (xs.map f) :=
  hP.decodes_readSeq h.1 fun x hmem => hx x (h.2 x hmem)

/-- A tag selects the reader of its fields, which goes on where the tag ends. -/
theorem decodes_tag {β : Type} (n : Nat) (hn : n < 256) {f : Nat → Reader β}
    {ts : List Byte} {b : β} (h : Decodes place (f n) ts b) :
    Decodes place (readTag8 >>= f) (P.writeTag8 n ++ ts) b :=
  (hP.decodes_readTag8 hn).bind h

/-- A tag of a constructor without fields: the constructor is all that is read. -/
theorem decodes_con {β : Type} (n : Nat) (hn : n < 256) {f : Nat → Reader β} {b : β}
    (h : f n = pure b) : Decodes place (readTag8 >>= f) (P.writeTag8 n) b := by
  have hd := decodes_tag hP n hn (f := f) (h ▸ Decodes.pure b)
  rwa [List.append_nil] at hd

/-! ### Primitive operations -/

/-- A field of a raw record. -/
theorem decodes_rawTy {t : RawTy .sml} (h : t.InRange) :
    Decodes place RawTy.read (writeRawTy P t) t.toCpp :=
  (decodes_numkind hP t.kind).bind (decodes_int hP h).bind_pure

/-- An optional descriptor. The writer is the generic one of the pickler for options, and the
reader is the special one for integers. -/
theorem decodes_integerOption (d : Option Int) :
    Decodes place readIntegerOption (P.writeOption P.writeInteger d)
      (d.map Integer.ofInt) := by
  cases d with
  | none => exact decodes_con hP 0 (by decide) rfl
  | some d => exact decodes_tag hP 1 (by decide) (hP.decodes_readInteger d).bind_pure

/-- An allocation. -/
theorem decodes_alloc {a : Alloc .sml} (h : a.InRange) :
    Decodes place Alloc.read (writeAlloc P a) a.toCpp := by
  cases a with
  | SPECIAL => exact decodes_con hP 1 (by decide) rfl
  | RECORD desc isMut =>
      refine decodes_tag hP 2 (by decide) ((hP.decodes_readInteger desc).bind ?_)
      exact (hP.decodes_readBool isMut).bind_pure
  | RAW_RECORD desc align fields =>
      obtain ⟨-, halign, hfields⟩ := h
      refine decodes_tag hP 3 (by decide) ((hP.decodes_readInteger desc).bind ?_)
      refine (decodes_int hP halign).bind ?_
      exact (decodes_list hP hfields fun t => decodes_rawTy hP).bind_pure
  | RAW_ALLOC desc align len =>
      obtain ⟨-, halign, hlen⟩ := h
      refine decodes_tag hP 4 (by decide) ((decodes_integerOption hP desc).bind ?_)
      exact (decodes_int hP halign).bind (decodes_int hP hlen).bind_pure

/-- A trapping operation. -/
theorem decodes_arith {a : Arith .sml} (h : a.InRange) :
    Decodes place Arith.read (writeArith P a) a.toCpp := by
  cases a with
  | ARITH oper sz =>
      refine decodes_tag hP 1 (by decide) ((decodes_arithop hP oper).bind ?_)
      exact (decodes_int hP h).bind_pure
  | FLOAT_TO_INT mode fromSz toSz =>
      refine decodes_tag hP 2 (by decide) ((decodes_roundingMode hP mode).bind ?_)
      exact (decodes_int hP h.1).bind (decodes_int hP h.2).bind_pure

/-- A pure operation. -/
theorem decodes_pure {a : CfgPrim.Pure .sml} (h : a.InRange) :
    Decodes place CfgPrim.Pure.read (writePure P a) a.toCpp := by
  cases a with
  | PURE_ARITH oper sz =>
      refine decodes_tag hP 1 (by decide) ((decodes_pureop hP oper).bind ?_)
      exact (decodes_int hP h).bind_pure
  | EXTEND signed fromSz toSz =>
      refine decodes_tag hP 2 (by decide) ((hP.decodes_readBool signed).bind ?_)
      exact (decodes_int hP h.1).bind (decodes_int hP h.2).bind_pure
  | TRUNC fromSz toSz =>
      exact decodes_tag hP 3 (by decide) ((decodes_int hP h.1).bind (decodes_int hP h.2).bind_pure)
  | INT_TO_FLOAT fromSz toSz =>
      exact decodes_tag hP 4 (by decide) ((decodes_int hP h.1).bind (decodes_int hP h.2).bind_pure)
  | FLOAT_TO_BITS sz => exact decodes_tag hP 5 (by decide) (decodes_int hP h).bind_pure
  | BITS_TO_FLOAT sz => exact decodes_tag hP 6 (by decide) (decodes_int hP h).bind_pure
  | PURE_SUBSCRIPT => exact decodes_con hP 7 (by decide) rfl
  | PURE_RAW_SUBSCRIPT kind sz =>
      refine decodes_tag hP 8 (by decide) ((decodes_numkind hP kind).bind ?_)
      exact (decodes_int hP h).bind_pure
  | RAW_SELECT kind sz offset =>
      refine decodes_tag hP 9 (by decide) ((decodes_numkind hP kind).bind ?_)
      exact (decodes_int hP h.1).bind (decodes_int hP h.2).bind_pure

/-- A looker. -/
theorem decodes_looker {a : Looker .sml} (h : a.InRange) :
    Decodes place Looker.read (writeLooker P a) a.toCpp := by
  cases a with
  | DEREF => exact decodes_con hP 1 (by decide) rfl
  | SUBSCRIPT => exact decodes_con hP 2 (by decide) rfl
  | RAW_SUBSCRIPT kind sz =>
      refine decodes_tag hP 3 (by decide) ((decodes_numkind hP kind).bind ?_)
      exact (decodes_int hP h).bind_pure
  | RAW_LOAD kind sz =>
      refine decodes_tag hP 4 (by decide) ((decodes_numkind hP kind).bind ?_)
      exact (decodes_int hP h).bind_pure
  | GET_HDLR => exact decodes_con hP 5 (by decide) rfl
  | GET_VAR => exact decodes_con hP 6 (by decide) rfl

/-- A setter. -/
theorem decodes_setter {a : Setter .sml} (h : a.InRange) :
    Decodes place Setter.read (writeSetter P a) a.toCpp := by
  cases a with
  | UNBOXED_UPDATE => exact decodes_con hP 1 (by decide) rfl
  | UPDATE => exact decodes_con hP 2 (by decide) rfl
  | UNBOXED_ASSIGN => exact decodes_con hP 3 (by decide) rfl
  | ASSIGN => exact decodes_con hP 4 (by decide) rfl
  | RAW_UPDATE kind sz =>
      refine decodes_tag hP 5 (by decide) ((decodes_numkind hP kind).bind ?_)
      exact (decodes_int hP h).bind_pure
  | RAW_STORE kind sz =>
      refine decodes_tag hP 6 (by decide) ((decodes_numkind hP kind).bind ?_)
      exact (decodes_int hP h).bind_pure
  | SET_HDLR => exact decodes_con hP 7 (by decide) rfl
  | SET_VAR => exact decodes_con hP 8 (by decide) rfl

/-- The test of a branch. The limit of a `LIMIT` is the only word among the fields. -/
theorem decodes_branch {a : Branch .sml} (h : a.InRange) :
    Decodes place Branch.read (writeBranch P a) a.toCpp := by
  cases a with
  | CMP oper signed sz =>
      refine decodes_tag hP 1 (by decide) ((decodes_cmpop hP oper).bind ?_)
      exact (hP.decodes_readBool signed).bind (decodes_int hP h).bind_pure
  | FCMP oper sz =>
      refine decodes_tag hP 2 (by decide) ((decodes_fcmpop hP oper).bind ?_)
      exact (decodes_int hP h).bind_pure
  | FSGN sz => exact decodes_tag hP 3 (by decide) (decodes_int hP h).bind_pure
  | PEQL => exact decodes_con hP 4 (by decide) rfl
  | PNEQ => exact decodes_con hP 5 (by decide) rfl
  | LIMIT amt => exact decodes_tag hP 6 (by decide) (hP.decodes_readUint h).bind_pure

/-- A type of the CFG, which is the same type on both sides. -/
theorem decodes_ty {t : Ty} (h : t.InRange) : Decodes place Ty.read (writeTy P t) t := by
  cases t with
  | LABt => exact decodes_con hP 1 (by decide) rfl
  | PTRt => exact decodes_con hP 2 (by decide) rfl
  | TAGt => exact decodes_con hP 3 (by decide) rfl
  | NUMt sz => exact decodes_tag hP 4 (by decide) (decodes_int hP h).bind_pure
  | FLTt sz => exact decodes_tag hP 5 (by decide) (decodes_int hP h).bind_pure

/-- A parameter. -/
theorem decodes_param {p : Param} (h : p.InRange) :
    Decodes place Param.read (writeParam P p) p :=
  (decodes_lvar h.1).bind (decodes_ty hP h.2).bind_pure

/-! ### Fuel

A reader of a recursive type needs no more fuel than it has bytes to read. -/

/-- A tag takes one byte, so the fields have one less to read. What is left of the fuel is enough
for them, each being no longer than all of them together. -/
theorem exists_fuel {n fuel : Nat} {ts : List Byte} (hn : n < 256)
    (h : (P.writeTag8 n ++ ts).length ≤ fuel) : ∃ f, fuel = f + 1 ∧ ts.length ≤ f := by
  rw [hP.writeTag8 n hn, List.length_append] at h
  have h1 : (Asdl.writeTag8 n).length = 1 := rfl
  exact ⟨fuel - 1, by omega, by omega⟩

/-- A constructor without fields is a tag, so there is some fuel for it. -/
theorem exists_fuel_con {n fuel : Nat} (hn : n < 256) (h : (P.writeTag8 n).length ≤ fuel) :
    ∃ f, fuel = f + 1 := by
  rw [← List.append_nil (P.writeTag8 n)] at h
  obtain ⟨f, hf, -⟩ := exists_fuel hP hn h
  exact ⟨f, hf⟩

omit hP in
/-- An element of a sequence is no longer than the sequence, which is why the fuel of the sequence
is enough for each of its elements. -/
theorem length_le_writeSeq {α : Type} {wrFn : α → List Byte} {xs : List α} {x : α}
    (h : x ∈ xs) : (wrFn x).length ≤ (P.writeSeq wrFn xs).length := by
  have hsub := (List.sublist_flatten_of_mem (List.mem_map_of_mem (f := wrFn) h)).length_le
  rw [ASDLFilePickle.writeSeq, List.length_append, List.flatMap_def]
  omega

/-- A sequence of a recursive type, each of whose elements is read with the fuel of the sequence.
The elements do not share the fuel: it bounds the depth of the recursion and not the number of
calls. -/
theorem decodes_seq {α β : Type} {read : Reader β} {wrFn : α → List Byte} {val : α → β}
    {fuel : Nat} {xs : List α} (hlen : xs.length < 2 ^ 30)
    (hfuel : (P.writeSeq wrFn xs).length ≤ fuel)
    (hx : ∀ x ∈ xs, (wrFn x).length ≤ fuel → Decodes place read (wrFn x) (val x)) :
    Decodes place (readSeq read) (P.writeSeq wrFn xs) (xs.map val) :=
  hP.decodes_readSeq hlen fun x hmem =>
    hx x hmem (Nat.le_trans (length_le_writeSeq hmem) hfuel)

/-! ### C types -/

/-- A C type in range, read with at least as much fuel as it has bytes. The induction is on the
proof that the type is in range, one case for each constructor. -/
theorem decodes_cType {t : CType .sml} (h : t.InRange) :
    ∀ fuel, (writeCType P t).length ≤ fuel →
      Decodes place (CType.read fuel) (writeCType P t) t.toCpp := by
  have hseq : ∀ ts : List (CType .sml), P.writeUInt ts.length ++ writeCTypes P ts
      = P.writeSeq (writeCType P) ts := fun ts => by rw [writeCTypes_eq]; rfl
  induction h with
  | C_void =>
      intro fuel hf
      obtain ⟨f, rfl⟩ := exists_fuel_con hP (by decide) hf
      exact decodes_con hP 1 (by decide) rfl
  | C_float =>
      intro fuel hf
      obtain ⟨f, rfl⟩ := exists_fuel_con hP (by decide) hf
      exact decodes_con hP 2 (by decide) rfl
  | C_double =>
      intro fuel hf
      obtain ⟨f, rfl⟩ := exists_fuel_con hP (by decide) hf
      exact decodes_con hP 3 (by decide) rfl
  | C_long_double =>
      intro fuel hf
      obtain ⟨f, rfl⟩ := exists_fuel_con hP (by decide) hf
      exact decodes_con hP 4 (by decide) rfl
  | C_unsigned ty =>
      intro fuel hf
      obtain ⟨f, rfl, -⟩ := exists_fuel hP (by decide) hf
      exact decodes_tag hP 5 (by decide) (decodes_cInt hP ty).bind_pure
  | C_signed ty =>
      intro fuel hf
      obtain ⟨f, rfl, -⟩ := exists_fuel hP (by decide) hf
      exact decodes_tag hP 6 (by decide) (decodes_cInt hP ty).bind_pure
  | C_PTR =>
      intro fuel hf
      obtain ⟨f, rfl⟩ := exists_fuel_con hP (by decide) hf
      exact decodes_con hP 7 (by decide) rfl
  | C_ARRAY _ hlen ih =>
      intro fuel hf
      obtain ⟨f, rfl, hlt⟩ := exists_fuel hP (by decide) hf
      rw [List.length_append] at hlt
      exact decodes_tag hP 8 (by decide) ((ih f (by omega)).bind (decodes_int hP hlen).bind_pure)
  | C_STRUCT hlen _ ih =>
      intro fuel hf
      obtain ⟨f, rfl, hlt⟩ := exists_fuel hP (by decide) hf
      rw [hseq] at hlt
      rw [writeCType, CType.toCpp, hseq, CType.toCpps_eq]
      exact decodes_tag hP 9 (by decide) (decodes_seq hP hlen hlt fun t ht => ih t ht f).bind_pure
  | C_UNION hlen _ ih =>
      intro fuel hf
      obtain ⟨f, rfl, hlt⟩ := exists_fuel hP (by decide) hf
      rw [hseq] at hlt
      rw [writeCType, CType.toCpp, hseq, CType.toCpps_eq]
      exact decodes_tag hP 10 (by decide) (decodes_seq hP hlen hlt fun t ht => ih t ht f).bind_pure

/-- A prototype, all of whose types are read with the fuel of the whole. -/
theorem decodes_cProto {p : CProto .sml} (h : p.InRange) {fuel : Nat}
    (hf : (writeCProto P p).length ≤ fuel) :
    Decodes place (CProto.read fuel) (writeCProto P p) p.toCpp := by
  obtain ⟨hconv, hret, hparams⟩ := h
  rw [writeCProto, List.length_append, List.length_append] at hf
  refine (hP.decodes_readString hconv).bind ?_
  refine (decodes_cType hP hret fuel (by omega)).bind ?_
  exact (decodes_seq hP hparams.1 (by omega) fun t ht =>
    decodes_cType hP (hparams.2 t ht) fuel).bind_pure

/-! ### Expressions and statements -/

/-- An expression in range, read with at least as much fuel as it has bytes. -/
theorem decodes_exp {e : Exp .sml} (h : e.InRange) :
    ∀ fuel, (writeExp P e).length ≤ fuel →
      Decodes place (Exp.read fuel) (writeExp P e) e.toCpp := by
  have hseq : ∀ es : List (Exp .sml), P.writeUInt es.length ++ writeExps P es
      = P.writeSeq (writeExp P) es := fun es => by rw [writeExps_eq]; rfl
  induction h with
  | VAR hname =>
      intro fuel hf
      obtain ⟨f, rfl, -⟩ := exists_fuel hP (by decide) hf
      exact decodes_tag hP 1 (by decide) (decodes_lvar hname).bind_pure
  | LABEL hname =>
      intro fuel hf
      obtain ⟨f, rfl, -⟩ := exists_fuel hP (by decide) hf
      exact decodes_tag hP 2 (by decide) (decodes_lvar hname).bind_pure
  | NUM _ hsz =>
      intro fuel hf
      obtain ⟨f, rfl, -⟩ := exists_fuel hP (by decide) hf
      refine decodes_tag hP 3 (by decide) ((hP.decodes_readInteger _).bind ?_)
      exact (decodes_int hP hsz).bind_pure
  | LOOKER hoper hlen _ ih =>
      intro fuel hf
      obtain ⟨f, rfl, hlt⟩ := exists_fuel hP (by decide) hf
      rw [hseq, List.length_append] at hlt
      rw [writeExp, Exp.toCpp, hseq, Exp.toCpps_eq]
      refine decodes_tag hP 4 (by decide) ((decodes_looker hP hoper).bind ?_)
      exact (decodes_seq hP hlen (by omega) fun e he => ih e he f).bind_pure
  | PURE hoper hlen _ ih =>
      intro fuel hf
      obtain ⟨f, rfl, hlt⟩ := exists_fuel hP (by decide) hf
      rw [hseq, List.length_append] at hlt
      rw [writeExp, Exp.toCpp, hseq, Exp.toCpps_eq]
      refine decodes_tag hP 5 (by decide) ((decodes_pure hP hoper).bind ?_)
      exact (decodes_seq hP hlen (by omega) fun e he => ih e he f).bind_pure
  | SELECT hidx _ ih =>
      intro fuel hf
      obtain ⟨f, rfl, hlt⟩ := exists_fuel hP (by decide) hf
      rw [List.length_append] at hlt
      exact decodes_tag hP 6 (by decide) ((decodes_int hP hidx).bind (ih f (by omega)).bind_pure)

/-- The arguments of a statement, which are not a part of the recursion over statements. -/
theorem decodes_args {es : List (Exp .sml)} (h : ListInRange Exp.InRange es) {fuel : Nat}
    (hf : (P.writeSeq (writeExp P) es).length ≤ fuel) :
    Decodes place (readSeq (Exp.read fuel)) (P.writeSeq (writeExp P) es)
      (es.map Exp.toCpp) :=
  decodes_seq hP h.1 hf fun e he => decodes_exp hP (h.2 e he) fuel

/-- A list that needs no change of representation, such as one of variables or types. -/
theorem decodes_list_self {α : Type} {read : Reader α} {wrFn : α → List Byte}
    {p : α → Prop} {xs : List α} (h : ListInRange p xs)
    (hx : ∀ x, p x → Decodes place read (wrFn x) x) :
    Decodes place (readSeq read) (P.writeSeq wrFn xs) xs := by
  have hd := decodes_list hP (f := id) h hx
  rwa [List.map_id] at hd

/-- A statement in range, read with at least as much fuel as it has bytes. Each case reads the
tag, the fields in their order, and the statements that follow with what is left of the fuel. -/
theorem decodes_stm {s : Stm .sml} (h : s.InRange) :
    ∀ fuel, (writeStm P s).length ≤ fuel →
      Decodes place (Stm.read fuel) (writeStm P s) s.toCpp := by
  induction h with
  | LET hexp hparam _ ih =>
      intro fuel hf
      obtain ⟨f, rfl, hlt⟩ := exists_fuel hP (by decide) hf
      simp only [List.length_append] at hlt
      refine decodes_tag hP 1 (by decide) ((decodes_exp hP hexp f (by omega)).bind ?_)
      exact (decodes_param hP hparam).bind (ih f (by omega)).bind_pure
  | ALLOC hoper hargs hlhs _ ih =>
      intro fuel hf
      obtain ⟨f, rfl, hlt⟩ := exists_fuel hP (by decide) hf
      simp only [List.length_append] at hlt
      refine decodes_tag hP 2 (by decide) ((decodes_alloc hP hoper).bind ?_)
      refine (decodes_args hP hargs (by omega)).bind ?_
      exact (decodes_lvar hlhs).bind (ih f (by omega)).bind_pure
  | APPLY hfn hargs htys =>
      intro fuel hf
      obtain ⟨f, rfl, hlt⟩ := exists_fuel hP (by decide) hf
      simp only [List.length_append] at hlt
      refine decodes_tag hP 3 (by decide) ((decodes_exp hP hfn f (by omega)).bind ?_)
      refine (decodes_args hP hargs (by omega)).bind ?_
      exact (decodes_list_self hP htys fun t => decodes_ty hP).bind_pure
  | THROW hfn hargs htys =>
      intro fuel hf
      obtain ⟨f, rfl, hlt⟩ := exists_fuel hP (by decide) hf
      simp only [List.length_append] at hlt
      refine decodes_tag hP 4 (by decide) ((decodes_exp hP hfn f (by omega)).bind ?_)
      refine (decodes_args hP hargs (by omega)).bind ?_
      exact (decodes_list_self hP htys fun t => decodes_ty hP).bind_pure
  | GOTO hlab hargs =>
      intro fuel hf
      obtain ⟨f, rfl, hlt⟩ := exists_fuel hP (by decide) hf
      simp only [List.length_append] at hlt
      refine decodes_tag hP 5 (by decide) ((decodes_lvar hlab).bind ?_)
      exact (decodes_args hP hargs (by omega)).bind_pure
  | @SWITCH arg cases harg hlen _ ih =>
      intro fuel hf
      obtain ⟨f, rfl, hlt⟩ := exists_fuel hP (by decide) hf
      have hseq : P.writeUInt cases.length ++ writeStms P cases
          = P.writeSeq (writeStm P) cases := by rw [writeStms_eq]; rfl
      rw [hseq, List.length_append] at hlt
      rw [writeStm, Stm.toCpp, hseq, Stm.toCpps_eq]
      refine decodes_tag hP 6 (by decide) ((decodes_exp hP harg f (by omega)).bind ?_)
      exact (decodes_seq hP hlen (by omega) fun s hs => ih s hs f).bind_pure
  | BRANCH hoper hargs hprob _ _ ihtrue ihfalse =>
      intro fuel hf
      obtain ⟨f, rfl, hlt⟩ := exists_fuel hP (by decide) hf
      simp only [List.length_append] at hlt
      refine decodes_tag hP 7 (by decide) ((decodes_branch hP hoper).bind ?_)
      refine (decodes_args hP hargs (by omega)).bind ?_
      refine (decodes_int hP hprob).bind ?_
      exact (ihtrue f (by omega)).bind (ihfalse f (by omega)).bind_pure
  | ARITH hoper hargs hparam _ ih =>
      intro fuel hf
      obtain ⟨f, rfl, hlt⟩ := exists_fuel hP (by decide) hf
      simp only [List.length_append] at hlt
      refine decodes_tag hP 8 (by decide) ((decodes_arith hP hoper).bind ?_)
      refine (decodes_args hP hargs (by omega)).bind ?_
      exact (decodes_param hP hparam).bind (ih f (by omega)).bind_pure
  | SETTER hoper hargs _ ih =>
      intro fuel hf
      obtain ⟨f, rfl, hlt⟩ := exists_fuel hP (by decide) hf
      simp only [List.length_append] at hlt
      refine decodes_tag hP 9 (by decide) ((decodes_setter hP hoper).bind ?_)
      exact (decodes_args hP hargs (by omega)).bind (ih f (by omega)).bind_pure
  | CALLGC hroots hnew _ ih =>
      intro fuel hf
      obtain ⟨f, rfl, hlt⟩ := exists_fuel hP (by decide) hf
      simp only [List.length_append] at hlt
      refine decodes_tag hP 10 (by decide) ((decodes_args hP hroots (by omega)).bind ?_)
      refine (decodes_list_self hP hnew fun x => decodes_lvar).bind ?_
      exact (ih f (by omega)).bind_pure
  | RCC hlinkage hproto hargs hresults hlive _ ih =>
      intro fuel hf
      obtain ⟨f, rfl, hlt⟩ := exists_fuel hP (by decide) hf
      simp only [List.length_append] at hlt
      refine decodes_tag hP 11 (by decide) ((hP.decodes_readBool _).bind ?_)
      refine (hP.decodes_readString hlinkage).bind ?_
      refine (decodes_cProto hP hproto (by omega)).bind ?_
      refine (decodes_args hP hargs (by omega)).bind ?_
      refine (decodes_list_self hP hresults fun p => decodes_param hP).bind ?_
      refine (decodes_list_self hP hlive fun p => decodes_param hP).bind ?_
      exact (ih f (by omega)).bind_pure

/-! ### Clusters and compilation units -/

/-- A fragment. -/
theorem decodes_frag {fr : Frag .sml} (h : fr.InRange) {fuel : Nat}
    (hf : (writeFrag P fr).length ≤ fuel) :
    Decodes place (Frag.read fuel) (writeFrag P fr) fr.toCpp := by
  obtain ⟨hlab, hparams, hbody⟩ := h
  simp only [writeFrag, List.length_append] at hf
  refine (decodes_fragKind hP fr.kind).bind ((decodes_lvar hlab).bind ?_)
  refine (decodes_list_self hP hparams fun p => decodes_param hP).bind ?_
  exact (decodes_stm hP hbody fuel (by omega)).bind_pure

/-- The attributes of a cluster. -/
theorem decodes_attrs {a : Attrs} (h : IntInRange a.alignHP) :
    Decodes place Attrs.read (writeAttrs P a) a := by
  refine (decodes_int hP h).bind ((hP.decodes_readBool _).bind ?_)
  exact (hP.decodes_readBool _).bind (hP.decodes_readBool _).bind_pure

/-- A cluster. -/
theorem decodes_cluster {c : Cluster .sml} (h : c.InRange) {fuel : Nat}
    (hf : (writeCluster P c).length ≤ fuel) :
    Decodes place (Cluster.read fuel) (writeCluster P c) c.toCpp := by
  simp only [writeCluster, List.length_append] at hf
  refine (decodes_attrs hP h.1).bind ?_
  exact (decodes_seq hP h.2.1 (by omega) fun fr hfr =>
    decodes_frag hP (h.2.2 fr hfr)).bind_pure

omit hP in
/-- Whatever the front end writes for a compilation unit in range, followed by any bytes, the code
generator reads back as the same tree, and it stops at the first byte that was not written. The
fuel is that of the reader itself, which takes it from the length of the stream. -/
theorem readCompUnit_writeCompUnit (P : ASDLFilePickle) (hP : P.Documented)
    (cu : CompUnit .sml) (h : cu.InRange) (tl : List Byte) :
    CompUnit.read.run (place (writeCompUnit P cu ++ tl)) = .ok (cu.toCpp, place tl) := by
  obtain ⟨hsrc, hentry, hfns⟩ := h
  suffices hd : Decodes place CompUnit.read (writeCompUnit P cu) cu.toCpp from hd tl
  refine Decodes.get_bind fun tl => ?_
  have hlen : (writeCompUnit P cu).length
      ≤ (place (writeCompUnit P cu ++ tl)).bytes.length + 1 := by
    show _ ≤ (writeCompUnit P cu ++ tl).length + 1
    rw [List.length_append]
    omega
  generalize (place (writeCompUnit P cu ++ tl)).bytes.length + 1 = fuel at hlen
  simp only [writeCompUnit, List.length_append] at hlen
  refine ((hP.decodes_readString hsrc).bind ((decodes_cluster hP hentry (by omega)).bind ?_)) tl
  exact (decodes_seq hP hfns.1 (by omega) fun c hc =>
    decodes_cluster hP (hfns.2 c hc)).bind_pure

omit hP

/-- A compilation unit with one function: it stores a sum through a pointer
and throws to its first argument. -/
def sampleUnit : CompUnit .sml :=
  { srcFile := [0x61]
    entry :=
      { attrs := ⟨0, false, false, false⟩
        frags :=
          [{ kind := .STD_FUN, lab := 7, params := [⟨3, .PTRt⟩, ⟨300, .NUMt 64⟩],
             body :=
               .SETTER .UNBOXED_ASSIGN
                 [.VAR 3, .PURE (.PURE_ARITH .ADD 64) [.VAR 300, .NUM (-5) 64]]
                 (.THROW (.VAR 3) [.SELECT 1 (.VAR 3)] [.TAGt]) }] }
    fns := [] }

/-- The numbers of `sampleUnit` are in range. -/
theorem inRange_sampleUnit : sampleUnit.InRange := by
  have h3 : Exp.InRange (.VAR 3) := .VAR (by decide)
  have harg : Exp.InRange (.PURE (.PURE_ARITH .ADD 64) [.VAR 300, .NUM (-5) 64]) :=
    @Exp.InRange.PURE (.PURE_ARITH .ADD 64) _ (show IntInRange 64 by decide) (by decide) (by
      intro e he
      simp only [List.mem_cons, List.not_mem_nil, or_false] at he
      obtain rfl | rfl := he
      · exact .VAR (by decide)
      · exact .NUM (by decide) (by decide))
  have hbody : Stm.InRange (.SETTER .UNBOXED_ASSIGN
      [.VAR 3, .PURE (.PURE_ARITH .ADD 64) [.VAR 300, .NUM (-5) 64]]
      (.THROW (.VAR 3) [.SELECT 1 (.VAR 3)] [.TAGt])) :=
    .SETTER trivial ⟨by decide, by
        intro e he
        simp only [List.mem_cons, List.not_mem_nil, or_false] at he
        obtain rfl | rfl := he
        · exact h3
        · exact harg⟩
      (.THROW h3 ⟨by decide, by
          intro e he
          rw [List.mem_singleton.mp he]
          exact .SELECT (by decide) h3⟩
        ⟨by decide, by
          intro t ht
          rw [List.mem_singleton.mp ht]
          trivial⟩)
  refine ⟨by decide, ⟨by decide, by decide, ?_⟩, by decide, by intro c hc; cases hc⟩
  intro fr hfr
  rw [List.mem_singleton.mp hfr]
  refine ⟨by decide, ⟨by decide, ?_⟩, hbody⟩
  intro q hq
  simp only [List.mem_cons, List.not_mem_nil, or_false] at hq
  obtain rfl | rfl := hq
  · exact ⟨by decide, trivial⟩
  · exact ⟨by decide, show IntInRange 64 by decide⟩

/-- `sampleUnit` followed by two bytes, which are left in the stream. -/
theorem readCompUnit_writeCompUnit_sampleUnit :
    CompUnit.read.run (place (writeCompUnit ASDLFilePickle.likeCpp sampleUnit ++ [1, 2]))
      = .ok (sampleUnit.toCpp, place [1, 2]) :=
  readCompUnit_writeCompUnit _ ASDLFilePickle.documented_likeCpp sampleUnit
    inRange_sampleUnit [1, 2]

end SmlnjCfg.CfgFilePickle
