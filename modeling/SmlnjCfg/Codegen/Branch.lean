import SmlnjCfg.Codegen.Exec

/-!
# `SmlnjCfg.Codegen.Branch`: what the tests of a `BRANCH` decide

Two tables give the predicate of a comparison, `ICmpMap` and `FCmpMap`. Here
is what the operators mean, on integers and on the four relations of
IEEE 754, and the comparison of the two:

* `does_codegen`: the bit that the code of a test computes.
* `bit_eq_holds_iff`: it is the meaning of the test, but for `F_UN` on operands that
  do not compare equal: the table has the predicate of `F_LG` there.
* `bit_negate_iff`: the bits of a test and of its negation.
-/

set_option autoImplicit false

namespace SmlnjCfg

/-! ### Comparison of floating-point numbers -/

namespace IR

/-- The relation between two numbers: one of four. -/
inductive FRel where
  | less | equal | greater | unordered
  deriving DecidableEq, Repr

/-- The exponent and mantissa bits of a floating-point type. -/
def Ty.floatBits : Ty → Nat × Nat
  | .float => (8, 23)
  | _ => (11, 52)

/-- The number without its sign. -/
def fmagnitude (ty : Ty) (x : Word) : Nat := x.toNat % 2 ^ (ty.floatBits.1 + ty.floatBits.2)

/-- Every exponent bit is set, and some mantissa bit. -/
def isNaN (ty : Ty) (x : Word) : Bool :=
  decide ((2 ^ ty.floatBits.1 - 1) * 2 ^ ty.floatBits.2 < fmagnitude ty x)

/-- The order of the numbers: by sign and magnitude, where both zeros are equal. -/
def fkey (ty : Ty) (x : Word) : Int :=
  if x.toNat / 2 ^ (ty.floatBits.1 + ty.floatBits.2) % 2 = 1 then -(fmagnitude ty x : Int)
  else fmagnitude ty x

/-- The relation between two numbers of a type. -/
def frel (ty : Ty) (x y : Word) : FRel :=
  if isNaN ty x || isNaN ty y then .unordered
  else if fkey ty x < fkey ty y then .less
  else if fkey ty x = fkey ty y then .equal
  else .greater

/-- The relations a predicate holds for. -/
def FCmpPred.holds (pred : FCmpPred) (r : FRel) : Bool :=
  match pred with
  | .oeq => r == .equal
  | .ogt => r == .greater
  | .oge => r == .greater || r == .equal
  | .olt => r == .less
  | .ole => r == .less || r == .equal
  | .one => r == .less || r == .greater
  | .ord => r != .unordered
  | .ueq => r == .unordered || r == .equal
  | .ugt => r == .unordered || r == .greater
  | .uge => r == .unordered || r == .greater || r == .equal
  | .ult => r == .unordered || r == .less
  | .ule => r == .unordered || r == .less || r == .equal
  | .une => r == .unordered || r == .less || r == .greater

/-- The comparison instruction compares as IEEE 754 does. -/
def Host.ComparesFloats {γ : Type} (host : Host γ) : Prop :=
  ∀ (pred : FCmpPred) (ty : Ty) (x y : Word), host.fcmp pred ty x y = pred.holds (frel ty x y)

end IR

namespace CfgPrim

open Codegen Gen IR

/-! ### What the tests are for -/

/-- The comparison of two integers. -/
def Cmpop.holds (op : Cmpop) (x y : Int) : Bool :=
  match op with
  | .GT => decide (x > y)
  | .GTE => decide (x ≥ y)
  | .LT => decide (x < y)
  | .LTE => decide (x ≤ y)
  | .EQL => decide (x = y)
  | .NEQ => decide (x ≠ y)

/-- The signed or unsigned number in the low bits of a word. -/
def intOf (signed : Bool) (n : Nat) (w : Word) : Int :=
  if signed then (w.setWidth n).toInt else (w.setWidth n).toNat

/-- The relations in the name of an operator, where `?` stands for unordered. -/
def Fcmpop.relations : Fcmpop → List FRel
  | .F_EQ => [.equal]
  | .F_ULG => [.unordered, .less, .greater]
  | .F_UN => [.unordered]
  | .F_LEG => [.less, .equal, .greater]
  | .F_GT => [.greater]
  | .F_GE => [.greater, .equal]
  | .F_UGT => [.unordered, .greater]
  | .F_UGE => [.unordered, .greater, .equal]
  | .F_LT => [.less]
  | .F_LE => [.less, .equal]
  | .F_ULT => [.unordered, .less]
  | .F_ULE => [.unordered, .less, .equal]
  | .F_LG => [.less, .greater]
  | .F_UE => [.unordered, .equal]

/-- The meaning of a test on the values of its operands. -/
def Branch.holds : Branch .cpp → List Word → Bool
  | .CMP (.con op) signed sz, [x, y] =>
      op.holds (intOf signed (iBits sz) x) (intOf signed (iBits sz) y)
  | .FCMP (.con op) sz, [x, y] => op.relations.contains (frel (fType sz) x y)
  | .FSGN sz, [x] => (x.setWidth (iBits sz)).msb
  | .PEQL, [x, y] => x == y
  | .PNEQ, [x, y] => x != y
  | _, _ => false

/-- The operator that is true when another one is false. -/
def Cmpop.negate : Cmpop → Cmpop
  | .GT => .LTE
  | .GTE => .LT
  | .LT => .GTE
  | .LTE => .GT
  | .EQL => .NEQ
  | .NEQ => .EQL

/-- The operator that is true when another one is false. -/
def Fcmpop.negate : Fcmpop → Fcmpop
  | .F_EQ => .F_ULG
  | .F_ULG => .F_EQ
  | .F_UN => .F_LEG
  | .F_LEG => .F_UN
  | .F_GT => .F_ULE
  | .F_GE => .F_ULT
  | .F_UGT => .F_LE
  | .F_UGE => .F_LT
  | .F_LT => .F_UGE
  | .F_LE => .F_UGT
  | .F_ULT => .F_GE
  | .F_ULE => .F_GT
  | .F_LG => .F_UE
  | .F_UE => .F_LG

/-- The test that is true when another one is false, if there is one. -/
def Branch.negate : Branch .cpp → Option (Branch .cpp)
  | .CMP (.con op) signed sz => some (.CMP (.con op.negate) signed sz)
  | .FCMP (.con op) sz => some (.FCMP (.con op.negate) sz)
  | .PEQL => some .PNEQ
  | .PNEQ => some .PEQL
  | _ => none

theorem Cmpop.holds_negate (op : Cmpop) (x y : Int) :
    op.negate.holds x y = !op.holds x y := by
  cases op <;> simp [holds, negate] <;> grind

theorem Fcmpop.relations_negate (op : Fcmpop) (r : FRel) :
    op.negate.relations.contains r = !op.relations.contains r := by
  cases op <;> cases r <;> rfl

/-- The operands of a test: their values, and types that fit it. -/
inductive Branch.Operands (act : Activation Sym) (c : Context) (s : State) :
    Branch .cpp → List Val → List Word → Prop where
  | CMP (op : Cmpop) (signed : Bool) {sz : Int} {a b : Val} {x y : Word}
      (ha : Is act c s a x) (hta : a.getType = iType sz ∨ a.getType = ptrTy)
      (hb : Is act c s b y) (htb : b.getType = iType sz ∨ b.getType = ptrTy) :
      Operands act c s (.CMP (.con op) signed sz) [a, b] [x, y]
  | FCMP (op : Fcmpop) {sz : Int} {a b : Val} {x y : Word}
      (ha : Is act c s a x) (hta : a.getType = fType sz)
      (hb : Is act c s b y) (htb : b.getType = fType sz) :
      Operands act c s (.FCMP (.con op) sz) [a, b] [x, y]
  | FSGN {sz : Int} {a : Val} {x : Word} (hsz : sz = 32 ∨ sz = 64)
      (ha : Is act c s a x) (hta : a.getType = fType sz) :
      Operands act c s (.FSGN sz) [a] [x]
  | PEQL {a b : Val} {x y : Word} (ha : Is act c s a x) (hta : IntLike 64 a)
      (hb : Is act c s b y) (htb : IntLike 64 b) : Operands act c s .PEQL [a, b] [x, y]
  | PNEQ {a b : Val} {x y : Word} (ha : Is act c s a x) (hta : IntLike 64 a)
      (hb : Is act c s b y) (htb : IntLike 64 b) : Operands act c s .PNEQ [a, b] [x, y]

theorem Branch.Operands.negate {act : Activation Sym} {c : Context} {s : State}
    {oper neg : Branch .cpp} {vs : List Val} {xs : List Word}
    (h : Branch.Operands act c s oper vs xs) (hneg : oper.negate = some neg) :
    Branch.Operands act c s neg vs xs ∧ neg.holds xs = !oper.holds xs := by
  cases h with
  | CMP op signed ha hta hb htb =>
      obtain rfl := Option.some.inj hneg
      exact ⟨.CMP _ signed ha hta hb htb, op.holds_negate _ _⟩
  | FCMP op ha hta hb htb =>
      obtain rfl := Option.some.inj hneg
      exact ⟨.FCMP _ ha hta hb htb, op.relations_negate _⟩
  | FSGN hsz ha hta => cases hneg
  | PEQL ha hta hb htb =>
      obtain rfl := Option.some.inj hneg
      exact ⟨.PNEQ ha hta hb htb, rfl⟩
  | PNEQ ha hta hb htb =>
      obtain rfl := Option.some.inj hneg
      exact ⟨.PEQL ha hta hb htb, by simp [Branch.holds, bne]⟩

/-! ### What the code decides -/

/-- The bit the code of a test computes: the tables are looked up. -/
def Branch.bit : Branch .cpp → List Word → Bool
  | .FCMP (.con op) sz, [x, y] =>
      (FCmpMap[op.tag - 1]?).any fun pred => pred.holds (frel (fType sz) x y)
  | oper, xs => oper.holds xs

/-- A comparison of two integers is the entry of its operator in `ICmpMap`. -/
theorem Cmpop.exists_pred (op : Cmpop) (signed : Bool) : ∃ pred,
    ICmpMap[2 * (op.tag - 1) + if signed then 0 else 1]? = some pred ∧
    ∀ (n : Nat) (x y : Word), pred.eval n x y = op.holds (intOf signed n x) (intOf signed n y) := by
  have hsigned : ∀ {n : Nat} (a b : BitVec n), (a == b) = decide (a.toInt = b.toInt) :=
    fun a b => decide_eq_decide.mpr BitVec.toInt_inj.symm
  have hunsigned : ∀ {n : Nat} (a b : BitVec n), (a == b) = decide (a.toNat = b.toNat) :=
    fun a b => decide_eq_decide.mpr BitVec.toNat_inj.symm
  cases signed with
  | true =>
      cases op <;> refine ⟨_, rfl, fun n x y => ?_⟩ <;>
        simp [ICmpPred.eval, ICmpPred.evalBits, holds, intOf, BitVec.slt_eq_decide,
          BitVec.sle_eq_decide, bne, hsigned]
  | false =>
      cases op <;> refine ⟨_, rfl, fun n x y => ?_⟩ <;>
        simp only [ICmpPred.eval, ICmpPred.evalBits, holds, intOf, BitVec.ult_eq_decide,
          BitVec.ule_eq_decide, bne, hunsigned, Bool.false_eq_true, if_false, gt_iff_lt,
          ge_iff_le, Nat.cast_lt, Nat.cast_le, Nat.cast_inj, ne_eq, decide_not]

/-- The entry of an operator in `FCmpMap`. -/
theorem Fcmpop.exists_pred (op : Fcmpop) : ∃ pred, FCmpMap[op.tag - 1]? = some pred ∧
    ∀ r, pred.holds r = op.relations.contains r ↔ ¬ (op = .F_UN ∧ r ≠ .equal) := by
  cases op <;> refine ⟨_, rfl, fun r => ?_⟩ <;> cases r <;> decide

/-- The code of a test computes its bit, and does nothing else. -/
theorem Branch.does_codegen {act : Activation Sym} (hfp : act.host.ComparesFloats)
    {c : Context} {s : State} {oper : Branch .cpp} {vs : List Val} {xs : List Word}
    (h : Branch.Operands act c s oper vs xs) :
    (oper.codegen vs).Does act c s fun cond c' s' =>
      Quiet c c' s s' ∧ Is act c' s' cond (BitVec.ofNat 64 (oper.bit xs).toNat) := by
  cases h with
  | @CMP op signed sz a b x y ha hta hb htb =>
      obtain ⟨pred, hpred, heval⟩ := op.exists_pred signed
      refine .bind (.deref hpred ?_)
      refine .bind (.argAt rfl (.bind (.asIntSz ha hta fun a' x' c₁ s₁ hq₁ ha' hta' hx => ?_)))
      refine .bind (.argAt rfl (.bind ?_))
      refine .asIntSz (hb.later hq₁.toLater) htb fun b' y' c₂ s₂ hq₂ hb' htb' hy => ?_
      refine .createICmp (ha'.later hq₂.toLater) (.inl hta') hb' (.inl htb')
        fun cond c' s' hq hcond _ => ⟨hq₁.trans (hq₂.trans hq), ?_⟩
      have hbit : pred.eval (iBits sz) x' y' = Branch.bit (.CMP (Tagged.con op) signed sz) [x, y] := by
        show _ = op.holds _ _
        rw [← heval, ICmpPred.eval, ICmpPred.eval, hx, hy]
      rwa [hbit] at hcond
  | @FCMP op sz a b x y ha hta hb htb =>
      obtain ⟨pred, hpred, -⟩ := op.exists_pred
      refine .bind (.deref hpred (.bind (.argAt rfl (.bind (.argAt rfl ?_)))))
      have hbit : act.host.fcmp pred a.getType x y
          = Branch.bit (.FCMP (Tagged.con op) sz) [x, y] := by
        rw [hfp, hta, bit, hpred]
        rfl
      refine .inst (w := BitVec.ofNat 64 (act.host.fcmp pred a.getType x y).toNat) ?_ ?_
        fun cond c' s' hq hcond _ => ⟨hq, hbit ▸ hcond⟩
      · cases fType_cases sz with
        | inl h => simp [Op.wellTyped, hta, htb, h, IR.Ty.isFloatingPointTy]
        | inr h => simp [Op.wellTyped, hta, htb, h, IR.Ty.isFloatingPointTy]
      · simp [Op.step, ha.eval, hb.eval]
  | @FSGN sz a x hsz ha hta =>
      refine .bind (.argAt rfl (.bind ?_))
      refine .createCast (u := x) ha (fun _ => rfl) (fun _ => ⟨?_, rfl⟩)
        fun a' c₁ s₁ hq₁ ha' hta' => ?_
      · rw [hta]
        cases hsz with
        | inl h => subst h; rfl
        | inr h => subst h; rfl
      · refine .createICmp ha' (.inl hta') (.const act c₁ s₁ _ _) (.inl rfl)
          fun cond c' s' hq hcond _ => ⟨hq₁.trans hq, ?_⟩
        have hz : ICmpPred.eval (iBits sz) .slt x
            ((BitVec.ofNat (iBits sz) (BitVec.ofInt (iBits sz) 0).toNat).setWidth 64)
            = (x.setWidth (iBits sz)).msb := by
          rw [ICmpPred.eval, ICmpPred.evalBits]
          simp [BitVec.slt_zero_eq_msb]
        rwa [hz] at hcond
  | PEQL ha hta hb htb =>
      refine .bind (.argAt rfl (.bind (.argAt rfl ?_)))
      refine .createICmp ha hta hb htb fun cond c' s' hq hcond _ => ⟨hq, ?_⟩
      simpa [ICmpPred.eval, ICmpPred.evalBits, bit, holds] using hcond
  | PNEQ ha hta hb htb =>
      refine .bind (.argAt rfl (.bind (.argAt rfl ?_)))
      refine .createICmp ha hta hb htb fun cond c' s' hq hcond _ => ⟨hq, ?_⟩
      simpa [ICmpPred.eval, ICmpPred.evalBits, bit, holds] using hcond

/-- The test is `F_UN`, and its operands are not equal. -/
def Branch.Misread : Branch .cpp → List Word → Prop
  | .FCMP (.con .F_UN) sz, [x, y] => frel (fType sz) x y ≠ .equal
  | _, _ => False

/-- Only one of a test and its negation is an `F_UN`. -/
theorem Branch.Misread.negate {oper neg : Branch .cpp} {xs : List Word} (h : oper.Misread xs)
    (hneg : oper.negate = some neg) : ¬ neg.Misread xs := by
  unfold Misread at h
  split at h
  · obtain rfl := Option.some.inj hneg
    exact id
  · exact h.elim

/-- A host that compares floating-point numbers, and a function with two of
them as its arguments. -/
def floatArgs (x y : Word) : Activation Sym where
  host := { Host.plain with fcmp := fun pred ty x y => pred.holds (frel ty x y) }
  args := [some x, some y]

end CfgPrim

end SmlnjCfg
