import SmlnjCfg.Cfg.Enums
import SmlnjCfg.Codegen.Run

/-!
# `SmlnjCfg.Codegen.Undeclared`: enumeration fields in code generation

The code generator looks the operator of a comparison up in a table, and takes
a case of a `switch` for the other operators and for the kind of a fragment.
Neither is checked: `ICmpMap` and `FCmpMap` are indexed with the number of the
operator, and no `switch` has a default. An index beyond the table and a value without
a case are undefined behaviour in C++, and the model of code generation fails there.

`Handled` says what the source needs, in its own terms: the index is in bounds, or the
value is one of the labels of the `switch`. `Generates` asks the model whether it has code.
The two agree for every tag (`handled_iff_generates`), so the tables and the lists of labels
here are those that `Branch.codegen`, `Arith.codegen`, `Pure.codegen` and `getArgInfo` use.

* `declared_ofTag`: the tags that are cast to a declared constructor.
* `handled_cmpop_iff`, `handled_fcmpop_iff`: a lookup is in bounds for these tags only.
* `handled_iff_generates`: what is handled is what code can be generated for.
* `declared_handled_iff`: which pickles make a tree all of whose fields are
  declared.
-/

set_option autoImplicit false

namespace SmlnjCfg

open Asdl Cfg CfgPrim

/-- The number of a value of an `enum class`. -/
def Tagged.number {α : Type} [DecidableEq α] (cons : List α) : Tagged α → Nat
  | .con a => cons.idxOf a + 1
  | .undeclared tag => tag

/-! ### Lookups and cases -/

/-- The index is that of an element of the table. -/
def InBounds {α : Type} (table : List α) (idx : Int) : Prop := 0 ≤ idx ∧ idx < table.length

namespace CfgPrim

/-- The index into `ICmpMap` that `CMP::codegen` computes. -/
def CMP.idx (oper : Tagged Cmpop) (signed : Bool) : Int :=
  let idx : Int := 2 * ((oper.number [.GT, .GTE, .LT, .LTE, .EQL, .NEQ] : Int) - 1)
  if signed then idx else idx + 1

/-- The index into `FCmpMap` that `FCMP::codegen` computes. -/
def FCMP.idx (oper : Tagged Fcmpop) : Int :=
  (oper.number [.F_EQ, .F_ULG, .F_UN, .F_LEG, .F_GT, .F_GE, .F_UGT, .F_UGE, .F_LT, .F_LE,
    .F_ULT, .F_ULE, .F_LG, .F_UE] : Int) - 1

/-- The cases of the `switch` of `ARITH::codegen`. -/
def ARITH.cases : List Arithop := [.IADD, .ISUB, .IMUL, .IDIV, .IREM]

/-- The cases of the `switch` of `PURE_ARITH::codegen`. -/
def PURE_ARITH.cases : List Pureop :=
  [.ADD, .SUB, .MUL, .SDIV, .SREM, .UDIV, .UREM, .SHL, .ASHR, .LSHR, .ORB, .XORB, .ANDB,
    .CNTPOP, .CNTLZ, .CNTTZ, .ROTL, .ROTR, .FADD, .FSUB, .FMUL, .FDIV, .FREM, .FMADD, .FNEG,
    .FABS, .FCOPYSIGN, .FSQRT]

end CfgPrim

/-- The cases of the `switch` of `_getArgInfo`. -/
def getArgInfoCases : List FragKind := [.STD_FUN, .STD_CONT, .KNOWN_FUN, .INTERNAL]

/-- The value has a case of the `switch`. -/
def HitsCase {α : Type} (cases : List α) (x : Tagged α) : Prop := ∃ a ∈ cases, x = .con a

namespace Cfg.EnumField

/-- The value is a constructor of the enumeration. -/
def Declared (f : EnumField) : Prop := ∃ a, f.value = .con a

/-- What the code generator does with the value is defined: the lookup is in
bounds, or the `switch` has a case. Nothing is chosen by the other
enumerations but by a comparison of kinds. -/
def Handled : EnumField → Prop
  | ⟨.cmpop, oper⟩ => ∀ signed, InBounds ICmpMap (CMP.idx oper signed)
  | ⟨.fcmpop, oper⟩ => InBounds FCmpMap (FCMP.idx oper)
  | ⟨.arithop, oper⟩ => HitsCase ARITH.cases oper
  | ⟨.pureop, oper⟩ => HitsCase PURE_ARITH.cases oper
  | ⟨.fragKind, kind⟩ => HitsCase getArgInfoCases kind
  | _ => True

/-- Code generation does not fail on the value, for some operands in some context. The
enumerations that nothing is looked up by are no reason to fail. -/
def Generates : EnumField → Prop
  | ⟨.cmpop, oper⟩ => ∀ signed, ∃ sz args c r,
      ((Branch.CMP oper signed sz : Branch .cpp).codegen args).run c = .ok r
  | ⟨.fcmpop, oper⟩ => ∃ sz args c r,
      ((Branch.FCMP oper sz : Branch .cpp).codegen args).run c = .ok r
  | ⟨.arithop, oper⟩ => ∃ sz args c r, (Arith.ARITH oper sz : Arith .cpp).codegen args c = .ok r
  | ⟨.pureop, oper⟩ => ∃ sz args c r,
      ((Pure.PURE_ARITH oper sz : Pure .cpp).codegen args).run c = .ok r
  | ⟨.fragKind, kind⟩ => ∃ c r, (Codegen.getArgInfo kind).run c = .ok r
  | _ => True

end Cfg.EnumField

/-- The tag is that of a constructor. -/
def Cfg.Enum.HasTag (e : Enum) (tag : Nat) : Prop := 1 ≤ tag ∧ tag ≤ e.cons.length

/-! ### Tags and numbers -/

namespace Tagged

variable {α : Type}

/-- The tags that are cast to an enumerator. -/
theorem exists_ofTag_eq_con_iff (cons : List α) (tag : Nat) :
    (∃ a, ofTag cons tag = .con a) ↔ 1 ≤ tag ∧ tag ≤ cons.length := by
  cases tag with
  | zero => simp [ofTag]
  | succ n =>
      simp only [ofTag]
      by_cases h : n < cons.length
      · rw [List.getElem?_eq_getElem h]
        simp
        omega
      · rw [List.getElem?_eq_none (by omega)]
        simp
        omega

/-- A cast keeps the number. -/
theorem number_ofTag [DecidableEq α] {cons : List α} (hcons : cons.Nodup) (tag : Nat) :
    (ofTag cons tag).number cons = tag := by
  cases tag with
  | zero => rfl
  | succ n =>
      simp only [ofTag]
      by_cases h : n < cons.length
      · rw [List.getElem?_eq_getElem h]
        show cons.idxOf cons[n] + 1 = n + 1
        rw [hcons.idxOf_getElem n h]
      · rw [List.getElem?_eq_none (by omega)]
        rfl

end Tagged

/-- A `switch` over all constructors has a case for each of them only. -/
theorem hitsCase_iff {α : Type} {cases : List α} (hcases : ∀ a, a ∈ cases) (x : Tagged α) :
    HitsCase cases x ↔ ∃ a, x = .con a := by
  constructor
  · rintro ⟨a, ha, hx⟩
    exact ⟨a, hx⟩
  · rintro ⟨a, hx⟩
    exact ⟨a, hcases a, hx⟩

namespace Cfg

/-- The fields of a tag that a constructor has. -/
theorem declared_ofTag (e : Enum) (tag : Nat) :
    (EnumField.ofTag (e, tag)).Declared ↔ e.HasTag tag :=
  Tagged.exists_ofTag_eq_con_iff e.cons tag

/-- The two rows of `ICmpMap` for an operator exist exactly for a tag that a
constructor has: the index of any other one is negative or beyond the table. -/
theorem handled_cmpop_iff (tag : Nat) :
    (EnumField.ofTag (.cmpop, tag)).Handled ↔ Enum.cmpop.HasTag tag := by
  have hnum : (Tagged.ofTag ([.GT, .GTE, .LT, .LTE, .EQL, .NEQ] : List Cmpop) tag).number
      [.GT, .GTE, .LT, .LTE, .EQL, .NEQ] = tag := Tagged.number_ofTag (by decide) tag
  show (∀ signed, 0 ≤ CMP.idx (Tagged.ofTag _ tag) signed ∧
    CMP.idx (Tagged.ofTag _ tag) signed < (12 : Int)) ↔ 1 ≤ tag ∧ tag ≤ 6
  simp only [CMP.idx, Enum.cons, hnum, Bool.forall_bool]
  simp
  omega

/-- The same for `FCmpMap`. -/
theorem handled_fcmpop_iff (tag : Nat) :
    (EnumField.ofTag (.fcmpop, tag)).Handled ↔ Enum.fcmpop.HasTag tag := by
  have hnum : (Tagged.ofTag (Enum.cons .fcmpop) tag : Tagged Fcmpop).number
      [.F_EQ, .F_ULG, .F_UN, .F_LEG, .F_GT, .F_GE, .F_UGT, .F_UGE, .F_LT, .F_LE, .F_ULT,
        .F_ULE, .F_LG, .F_UE] = tag := Tagged.number_ofTag (by decide) tag
  show (0 ≤ FCMP.idx (Tagged.ofTag _ tag) ∧ FCMP.idx (Tagged.ofTag _ tag) < (14 : Int)) ↔
    1 ≤ tag ∧ tag ≤ 14
  rw [FCMP.idx, hnum]
  omega

/-- A tag that a constructor has is handled, whatever the enumeration. -/
theorem handled_of_hasTag {e : Enum} {tag : Nat} (h : e.HasTag tag) :
    (EnumField.ofTag (e, tag)).Handled := by
  have hdecl := (declared_ofTag e tag).mpr h
  cases e with
  | cmpop => exact (handled_cmpop_iff tag).mpr h
  | fcmpop => exact (handled_fcmpop_iff tag).mpr h
  | arithop => exact (hitsCase_iff (fun a => by cases a <;> decide) _).mpr hdecl
  | pureop => exact (hitsCase_iff (fun a => by cases a <;> decide) _).mpr hdecl
  | fragKind => exact (hitsCase_iff (fun a => by cases a <;> decide) _).mpr hdecl
  | numkind => trivial
  | roundingMode => trivial
  | cInt => trivial

/-! ### Code for a value -/

/-- A number that any operator takes. -/
def someOperand : Codegen.Val := .const 64 0

/-- A context whose overflow block has been made, so that an `ARITH` does not need to make it. -/
def someContext : Codegen.Context :=
  { Codegen.Context.create arm64Info with overflowBB := some (.new 0) }

/-- There is code for a constructor of each enumeration. -/
theorem generates_con (e : Enum) (a : e.Con) : (⟨e, .con a⟩ : EnumField).Generates := by
  cases e with
  | cmpop =>
      intro signed
      refine ⟨64, [someOperand, someOperand], someContext, ?_⟩
      cases a <;> cases signed <;> exact ⟨_, rfl⟩
  | fcmpop =>
      refine ⟨64, [someOperand, someOperand], someContext, ?_⟩
      cases a <;> exact ⟨_, rfl⟩
  | arithop =>
      refine ⟨64, [someOperand, someOperand], someContext, ?_⟩
      cases a <;> exact ⟨_, rfl⟩
  | pureop =>
      refine ⟨64, [someOperand, someOperand], someContext, ?_⟩
      cases a <;> exact ⟨_, rfl⟩
  | fragKind => exact ⟨someContext, _, rfl⟩
  | numkind | roundingMode | cInt => trivial

/-- `ARITH::codegen` takes the operands before the operator, and fails then. -/
theorem not_generates_arithop (tag : Nat) :
    ¬ (⟨.arithop, .undeclared tag⟩ : EnumField).Generates := by
  rintro ⟨sz, args, c, r, h⟩
  obtain ⟨-, c₁, -, h⟩ := Codegen.CodegenM.bind_ok.mp h
  obtain ⟨a, c₂, -, h⟩ := Codegen.CodegenM.bind_ok.mp h
  obtain ⟨a', c₃, -, h⟩ := Codegen.CodegenM.bind_ok.mp h
  obtain ⟨b, c₄, -, h⟩ := Codegen.CodegenM.bind_ok.mp h
  obtain ⟨b', c₅, -, h⟩ := Codegen.CodegenM.bind_ok.mp h
  cases h

/-- What is handled is what code can be generated for, whatever tag was cast: the tables and the
labels above are those of the code generator. -/
theorem handled_iff_generates (e : Enum) (tag : Nat) :
    (EnumField.ofTag (e, tag)).Handled ↔ (EnumField.ofTag (e, tag)).Generates := by
  by_cases htag : e.HasTag tag
  · -- a constructor is handled, and there is code for it
    obtain ⟨a, ha⟩ := (declared_ofTag e tag).mpr htag
    have hfield : EnumField.ofTag (e, tag) = ⟨e, .con a⟩ := congrArg (EnumField.mk e) ha
    exact ⟨fun _ => hfield ▸ generates_con e a, fun _ => handled_of_hasTag htag⟩
  · have hnone : ¬ ∃ a, (EnumField.ofTag (e, tag)).value = .con a :=
      fun h => htag ((declared_ofTag e tag).mp h)
    have hfield : ∃ n, EnumField.ofTag (e, tag) = ⟨e, .undeclared n⟩ := by
      cases hv : (EnumField.ofTag (e, tag)).value with
      | con a => exact absurd ⟨a, hv⟩ hnone
      | undeclared n => exact ⟨n, congrArg (EnumField.mk e) hv⟩
    obtain ⟨n, hfield⟩ := hfield
    cases e with
    | cmpop =>
        refine ⟨fun h => absurd ((handled_cmpop_iff tag).mp h) htag, fun h => ?_⟩
        rw [hfield] at h
        obtain ⟨sz, args, c, r, hrun⟩ := h true
        cases hrun
    | fcmpop =>
        refine ⟨fun h => absurd ((handled_fcmpop_iff tag).mp h) htag, fun h => ?_⟩
        rw [hfield] at h
        obtain ⟨sz, args, c, r, hrun⟩ := h
        cases hrun
    | arithop =>
        rw [hfield]
        constructor
        · rintro ⟨a, -, ha⟩
          cases ha
        · exact fun h => absurd h (not_generates_arithop n)
    | pureop =>
        rw [hfield]
        constructor
        · rintro ⟨a, -, ha⟩
          cases ha
        · rintro ⟨sz, args, c, r, hrun⟩
          cases hrun
    | fragKind =>
        rw [hfield]
        constructor
        · rintro ⟨a, -, ha⟩
          cases ha
        · rintro ⟨c, r, hrun⟩
          cases hrun
    | numkind | roundingMode | cInt => exact Iff.rfl

/-- Every enumeration byte of a pickle is the tag of a constructor. -/
def TagsDeclared (bytes : List Byte) : Prop :=
  ∀ tags is, (scanCompUnit tagScanner).run (place bytes) = .ok (tags, is) →
    ∀ p ∈ tags, p.1.HasTag p.2

/-- The trees that are read from a pickle have declared fields only, and code
generation can handle them all, exactly when the bytes at the enumerations are
tags of constructors: no reader looks at them. The readers never run out of fuel, so a
pickle that gives no tree is one that they reject, and to handle a field is to have code
for it. -/
theorem declared_handled_iff (bytes : List Byte) :
    ((∀ t is, CompUnit.read.run (place bytes) = .ok (t, is) →
      (∀ f ∈ t.fields, f.Declared) ∧ ∀ f ∈ t.fields, f.Handled) ↔ TagsDeclared bytes) ∧
    CompUnit.read.run (place bytes) ≠ .error .outOfFuel ∧
    ∀ t is, CompUnit.read.run (place bytes) = .ok (t, is) →
      ∀ f ∈ t.fields, f.Handled ↔ f.Generates := by
  have hof : ∀ t is, CompUnit.read.run (place bytes) = .ok (t, is) →
      ∃ tags, (scanCompUnit tagScanner).run (place bytes) = .ok (tags, is) ∧
        ∀ f ∈ t.fields, ∃ p ∈ tags, EnumField.ofTag p = f := by
    intro t is ht
    obtain ⟨tags, htags, hfields⟩ := run_read_ok_iff.mp ⟨t, ht, rfl⟩
    refine ⟨tags, htags, fun f hf => ?_⟩
    rw [← hfields] at hf
    exact List.mem_map.mp hf
  refine ⟨⟨?_, ?_⟩, run_read_ne_outOfFuel bytes, ?_⟩
  · intro h tags is htags p hp
    obtain ⟨t, ht, hfields⟩ := run_read_ok_iff.mpr ⟨tags, htags, rfl⟩
    have hmem : EnumField.ofTag p ∈ t.fields := by
      rw [hfields]
      exact List.mem_map_of_mem hp
    exact (declared_ofTag p.1 p.2).mp ((h t is ht).1 _ hmem)
  · intro h t is ht
    obtain ⟨tags, htags, hall⟩ := hof t is ht
    constructor
    · intro f hf
      obtain ⟨p, hp, rfl⟩ := hall f hf
      exact (declared_ofTag p.1 p.2).mpr (h tags is htags p hp)
    · intro f hf
      obtain ⟨p, hp, rfl⟩ := hall f hf
      exact handled_of_hasTag (h tags is htags p hp)
  · intro t is ht f hf
    obtain ⟨tags, -, hall⟩ := hof t is ht
    obtain ⟨p, -, rfl⟩ := hall f hf
    exact handled_iff_generates p.1 p.2

/-- A pickle of one fragment, the kind of which has the tag `5`, with a
comparison, the operator of which has the tag `7`. -/
def undeclaredPickle : List Byte :=
  [0x00, 0x00, 0x01, 0x01, 0x01, 0x01, 0x05, 0x00, 0x00, 0x07, 0x01, 0x07, 0x02, 0x00, 0x00,
    0x00, 0x05, 0x00, 0x00, 0x05, 0x00, 0x00, 0x00]

/-- It is read to its end, without an error. -/
theorem scan_undeclaredPickle : (scanCompUnit tagScanner).run (place undeclaredPickle)
    = .ok ([(.fragKind, 5), (.cmpop, 7)], place []) := by
  decide +kernel

/-- Its tree has neither declared fields nor a lookup in bounds. -/
theorem not_declared_handled :
    ¬ ∀ t is, CompUnit.read.run (place undeclaredPickle) = .ok (t, is) →
      (∀ f ∈ t.fields, f.Declared) ∧ ∀ f ∈ t.fields, f.Handled := by
  intro h
  obtain ⟨t, ht, hfields⟩ := run_read_ok_iff.mpr ⟨_, scan_undeclaredPickle, rfl⟩
  have hcmp := (h t _ ht).2 (EnumField.ofTag (.cmpop, 7)) (by rw [hfields]; simp)
  have htag := (handled_cmpop_iff 7).mp hcmp
  exact absurd htag.2 (by decide)

end Cfg

end SmlnjCfg
