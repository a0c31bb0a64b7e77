import SmlnjCfg.Lib.Bits
import SmlnjCfg.Codegen.Exec
import SmlnjCfg.Codegen.Types

/-!
# `SmlnjCfg.Codegen.PureArith`: operands of pure arithmetic

The value of an integer expression is an LLVM integer of the size of the
operation, or an ML value: a pointer with the same bits. `Denotes` says what
the integer operators mean, on bit patterns and for operands in either
representation, and `Computes` that the code of an expression is well typed
and has that result.

* `computes_iff`: the code is right for every nesting of operators, but for
  those that pass a pointer operand on as it is. These are the bit counts, the
  rotations and `TRUNC`; the others coerce their operands.
-/

set_option autoImplicit false

namespace SmlnjCfg

namespace CfgPrim

open Codegen Gen IR

/-! ### What the operators mean -/

/-- The number an operator stands for, on the bit patterns of its operands and
without a bound on its size, if the operands are allowed. -/
def Pureop.denote {n : Nat} (op : Pureop) : List (BitVec n) → Option Int
  | [x] =>
      match op with
      | .CNTPOP => some ((List.range n).countP x.getLsbD)
      | .CNTLZ => some ((List.range n).findIdx x.getMsbD)
      | .CNTTZ => some ((List.range n).findIdx x.getLsbD)
      | _ => none
  | [x, y] =>
      match op with
      | .ADD => some (x.toNat + y.toNat)
      | .SUB => some (x.toNat - y.toNat)
      | .MUL => some (x.toNat * y.toNat)
      | .SDIV =>
          if y = 0 ∨ x.toInt = -2 ^ (n - 1) ∧ y.toInt = -1 then none
          else some (x.toInt.tdiv y.toInt)
      | .SREM =>
          if y = 0 ∨ x.toInt = -2 ^ (n - 1) ∧ y.toInt = -1 then none
          else some (x.toInt.tmod y.toInt)
      | .UDIV => if y = 0 then none else some (x.toNat / y.toNat : Nat)
      | .UREM => if y = 0 then none else some (x.toNat % y.toNat : Nat)
      | .SHL => if y.toNat < n then some (x.toNat * 2 ^ y.toNat : Nat) else none
      | .ASHR => if y.toNat < n then some (x.toInt / (2 ^ y.toNat : Nat)) else none
      | .LSHR => if y.toNat < n then some (x.toNat / 2 ^ y.toNat : Nat) else none
      | .ORB => some (x.toNat ||| y.toNat : Nat)
      | .XORB => some (x.toNat ^^^ y.toNat : Nat)
      | .ANDB => some (x.toNat &&& y.toNat : Nat)
      | .ROTL =>
          if y.toNat < n then some (x.toNat * 2 ^ y.toNat + x.toNat / 2 ^ (n - y.toNat) : Nat)
          else none
      | .ROTR =>
          if y.toNat < n then some (x.toNat * 2 ^ (n - y.toNat) + x.toNat / 2 ^ y.toNat : Nat)
          else none
      | _ => none
  | _ => none

/-- The operators with an instruction of their own: where the operator has a meaning, LLVM's
instruction is defined and gives that integer modulo the width. -/
theorem Pureop.evalBits_of_denote {n : Nat} (hn : 0 < n) {op : Pureop} {b : BinOp}
    {x y : BitVec n} {r : Int} (hb : op.binOp = some b) (h : op.denote [x, y] = some r) :
    b.evalBits x y = some (BitVec.ofInt n r) := by
  cases op <;> simp only [Pureop.binOp, reduceCtorEq, Option.some.injEq] at hb <;> subst hb <;>
    simp only [Pureop.denote, Option.ite_none_left_eq_some, Option.ite_none_right_eq_some,
      Option.some.injEq] at h
  case SDIV | SREM =>
    obtain ⟨hg, rfl⟩ := h
    obtain ⟨hy, hmin⟩ := not_or.mp hg
    rw [BinOp.evalBits, if_neg (not_or.mpr ⟨hy, by rwa [Bits.sdivOverflow_iff hn]⟩)]
    first
      | rw [Bits.sdiv_eq_ofInt]
      | rw [Bits.srem_eq_ofInt]
  case UDIV =>
    obtain ⟨hg, rfl⟩ := h
    rw [BinOp.evalBits, if_neg hg, Bits.udiv_eq_ofInt]
  case UREM =>
    obtain ⟨hg, rfl⟩ := h
    rw [BinOp.evalBits, if_neg hg, Bits.umod_eq_ofInt]
  case SHL =>
    obtain ⟨hlt, rfl⟩ := h
    rw [BinOp.evalBits, if_pos hlt, Bits.shiftLeft_eq_ofInt]
  case ASHR =>
    obtain ⟨hlt, rfl⟩ := h
    rw [BinOp.evalBits, if_pos hlt, Bits.sshiftRight_eq_ofInt]
  case LSHR =>
    obtain ⟨hlt, rfl⟩ := h
    rw [BinOp.evalBits, if_pos hlt, Bits.ushiftRight_eq_ofInt]
  case ADD =>
    subst h
    simp [BinOp.evalBits, BitVec.ofInt_add]
  case SUB =>
    subst h
    rw [BinOp.evalBits, Bits.sub_eq_ofInt]
  all_goals
    subst h
    simp [BinOp.evalBits, BitVec.ofInt_mul]

/-- The operators of the integer arithmetic: their result is an LLVM integer of the width, and
never an ML value. -/
def Pure.isIntOp : Pure .cpp → Bool
  | .PURE_ARITH (.con op) _ => op.binOp.isSome || (op matches .CNTPOP | .CNTLZ | .CNTTZ | .ROTL | .ROTR)
  | .TRUNC _ _ => true
  | _ => false

/-- The operators that pass their operands on as they are: `codegen` coerces the operands of a
binary instruction only, and gives an intrinsic or a truncation what it got. -/
def Pure.passesOperands : Pure .cpp → Bool
  | .PURE_ARITH (.con op) _ => op.binOp.isNone
  | .TRUNC _ _ => true
  | _ => false

end CfgPrim

namespace Codegen

open IR

/-- An operand of `n` bits: an integer, or a pointer with the same low bits. A word that was
loaded from a record is a pointer for LLVM, whatever it stands for. -/
def Operand (act : Activation Sym) (c : Context) (s : State) (v : Val) (n : Nat) (x : BitVec n) :
    Prop :=
  ∃ w, Is act c s v w ∧ w.setWidth n = x ∧ (v.getType = .int n ∨ v.getType = ptrTy)

/-- An integer of `n` bits, as a value of LLVM's integer type. -/
structure IntResult (act : Activation Sym) (c : Context) (s : State) (v : Val) (n : Nat)
    (x : BitVec n) : Prop where
  is : Is act c s v (x.setWidth 64)
  getType : v.getType = .int n

/-- An operand stays one while code is added, since a value is not assigned twice. -/
theorem Operand.later {act : Activation Sym} {c c' : Context} {s s' : State} {v : Val} {n : Nat}
    {x : BitVec n} (h : Operand act c s v n x) (hl : Later c c' s s') :
    Operand act c' s' v n x := by
  obtain ⟨w, hw, hx, hty⟩ := h
  exact ⟨w, hw.later hl, hx, hty⟩

/-- A result is an operand of the next operation. -/
theorem IntResult.operand {act : Activation Sym} {c : Context} {s : State} {v : Val} {n : Nat}
    {x : BitVec n} (h : IntResult act c s v n x) (hn : n ≤ 64) : Operand act c s v n x :=
  ⟨_, h.is, by rw [BitVec.setWidth_setWidth_of_le _ hn, BitVec.setWidth_eq], .inl h.getType⟩

end Codegen

namespace CfgPrim

open Codegen Gen IR

variable {act : Activation Sym} {c : Context} {s : State}

/-- The widths of the arithmetic are those the intrinsics are declared for. -/
theorem intrinsicBits {sz : Int} (hsz : sz = 32 ∨ sz = 64) :
    (if sz = 32 then 32 else 64) = iBits sz := by
  rcases hsz with rfl | rfl <;> rfl

/-- One operation of two coerced operands: both are integers of the width by then. -/
theorem does_createBin {op : Pureop} {b : BinOp} {sz : Int} {va vb : Val}
    {x y : BitVec (iBits sz)} {r : Int} {Q : Val → Context → State → Prop}
    (hb : op.binOp = some b) (ha : Operand act c s va _ x) (hbv : Operand act c s vb _ y)
    (hr : op.denote [x, y] = some r)
    (h : ∀ v c' s', Quiet c c' s s' → IntResult act c' s' v _ (BitVec.ofInt (iBits sz) r) →
      Q v c' s') :
    (asIntSz sz va >>= fun a => asIntSz sz vb >>= fun b' => createBin b a b').Does act c s Q := by
  obtain ⟨wa, hwa, rfl, hta⟩ := ha
  obtain ⟨wb, hwb, rfl, htb⟩ := hbv
  refine .bind (.asIntSz hwa hta fun a' wa' c₁ s₁ hq₁ ha' hta' hlow => ?_)
  refine .bind (.asIntSz (hwb.later hq₁.toLater) htb fun b' wb' c₂ s₂ hq₂ hb' htb' hlow' => ?_)
  have hn : 0 < iBits sz := by have := iBits_cases sz; omega
  have hev : b.eval (iBits sz) wa' wb' = some ((BitVec.ofInt (iBits sz) r).setWidth 64) := by
    rw [BinOp.eval, hlow, hlow', Pureop.evalBits_of_denote hn hb hr, Option.map_some]
  exact .createBin (ha'.later hq₂.toLater) (.inl hta') hb' (.inl htb') hev
    fun v c' s' hq hv ht => h v c' s' (hq₁.trans (hq₂.trans hq)) ⟨hv, ht⟩

/-- A rotation amount below the width is found in the low bits, so nothing is lost by the
reduction that LLVM's funnel shift makes. -/
theorem toNat_mod_of_lt {sz : Int} (hsz : sz = 32 ∨ sz = 64) {w : Word}
    (h : (w.setWidth (iBits sz)).toNat < iBits sz) :
    w.toNat % iBits sz = (w.setWidth (iBits sz)).toNat := by
  have hdvd : iBits sz ∣ 2 ^ iBits sz := by
    rcases hsz with rfl | rfl
    · exact Nat.pow_dvd_pow 2 (show 5 ≤ 32 by decide)
    · exact Nat.pow_dvd_pow 2 (show 6 ≤ 64 by decide)
  rw [BitVec.toNat_setWidth] at h ⊢
  rw [← Nat.mod_mod_of_dvd _ hdvd, Nat.mod_eq_of_lt h]

/-- An intrinsic on integers of its width. It is typed by its own declaration, so a pointer among
the arguments is no call of it. -/
theorem does_intrinsic {f : Intrinsic} {n : Nat} {vs : List Val} {ws : List Word} {x : BitVec n}
    {Q : Val → Context → State → Prop} (hty : vs.map Value.getType = f.argTys n)
    (hws : vs.mapM (·.eval act s.regs) = some ws)
    (hf : f.eval act.host n ws = some (x.setWidth 64))
    (h : ∀ v c' s', Quiet c c' s s' → IntResult act c' s' v n x → Q v c' s') :
    (inst (.intrinsic f n vs) (.int n)).Does act c s Q := by
  refine .inst ?_ ?_ fun v c' s' hq hv ht => h v c' s' hq ⟨hv, ht⟩
  · simpa [Op.wellTyped] using hty
  · simp [Op.step, hws, hf]

/-- An operator with one operand. The operand is not coerced by any of them. -/
theorem does_arith₁ {op : Pureop} {sz : Int} {va : Val} {x : BitVec (iBits sz)} {r : Int}
    {Q : Val → Context → State → Prop} (hsz : sz = 32 ∨ sz = 64)
    (ha : Operand act c s va _ x) (hty : va.getType ≠ ptrTy) (hr : op.denote [x] = some r)
    (h : ∀ v c' s', Quiet c c' s s' → IntResult act c' s' v _ (BitVec.ofInt (iBits sz) r) →
      Q v c' s') :
    ((Pure.PURE_ARITH (.con op) sz : Pure .cpp).codegen [va]).Does act c s Q := by
  obtain ⟨w, hw, rfl, hta⟩ := ha
  replace hta := hta.resolve_right hty
  have hws : [va].mapM (·.eval act s.regs) = some [w] := by simp [hw.eval]
  cases op <;> simp only [Pureop.denote, reduceCtorEq, Option.some.injEq] at hr <;> subst hr <;>
    simp only [Pure.codegen, intrinsicBits hsz]
  case CNTPOP =>
    refine does_intrinsic (by simp [hta, Intrinsic.argTys]) hws ?_ h
    rw [Intrinsic.eval, Bits.cpop_eq_ofInt]
  case CNTLZ =>
    refine .bind (.argAt rfl (does_intrinsic (by simp [hta, Intrinsic.argTys]) hws ?_ h))
    rw [Intrinsic.eval, Bits.clz_eq_ofInt]
  case CNTTZ =>
    refine .bind (.argAt rfl (does_intrinsic (by simp [hta, Intrinsic.argTys]) hws ?_ h))
    rw [Intrinsic.eval, Bits.ctz_eq_ofInt]

/-- An operator with two operands: coerced for an instruction, and as they are for a rotation. -/
theorem does_arith₂ {op : Pureop} {sz : Int} {va vb : Val} {x y : BitVec (iBits sz)} {r : Int}
    {Q : Val → Context → State → Prop} (hsz : sz = 32 ∨ sz = 64)
    (ha : Operand act c s va _ x) (hb : Operand act c s vb _ y)
    (hty : op.binOp = none → va.getType ≠ ptrTy ∧ vb.getType ≠ ptrTy)
    (hr : op.denote [x, y] = some r)
    (h : ∀ v c' s', Quiet c c' s s' → IntResult act c' s' v _ (BitVec.ofInt (iBits sz) r) →
      Q v c' s') :
    ((Pure.PURE_ARITH (.con op) sz : Pure .cpp).codegen [va, vb]).Does act c s Q := by
  cases hop : op.binOp with
  | some b =>
      have hcode : (Pure.PURE_ARITH (.con op) sz : Pure .cpp).codegen [va, vb]
          = asIntSz sz va >>= fun a => asIntSz sz vb >>= fun b' => createBin b a b' := by
        cases op <;> simp only [Pureop.binOp, reduceCtorEq, Option.some.injEq] at hop <;>
          subst hop <;> rfl
      rw [hcode]
      exact does_createBin hop ha hb hr h
  | none =>
      obtain ⟨htya, htyb⟩ := hty hop
      obtain ⟨wa, hwa, rfl, hta⟩ := ha
      obtain ⟨wb, hwb, rfl, htb⟩ := hb
      replace hta := hta.resolve_right htya
      replace htb := htb.resolve_right htyb
      have hws : [va, va, vb].mapM (·.eval act s.regs) = some [wa, wa, wb] := by
        simp [hwa.eval, hwb.eval]
      cases op <;> simp only [Pureop.binOp, reduceCtorEq] at hop <;>
        simp only [Pureop.denote, reduceCtorEq, Option.ite_none_right_eq_some,
          Option.some.injEq] at hr <;>
        simp only [Pure.codegen, intrinsicBits hsz]
      case ROTL =>
        obtain ⟨hlt, rfl⟩ := hr
        refine .bind (.argAt rfl (.bind (.argAt rfl ?_)))
        refine does_intrinsic (by simp [hta, htb, Intrinsic.argTys]) hws ?_ h
        rw [Intrinsic.eval, toNat_mod_of_lt hsz hlt, Bits.rotate_eq_ofInt _ hlt.le]
      case ROTR =>
        obtain ⟨hlt, rfl⟩ := hr
        refine .bind (.argAt rfl (.bind (.argAt rfl ?_)))
        refine does_intrinsic (by simp [hta, htb, Intrinsic.argTys]) hws ?_ h
        have hrot := Bits.rotate_eq_ofInt (wa.setWidth (iBits sz))
          (Nat.sub_le (iBits sz) (wb.setWidth (iBits sz)).toNat)
        rw [Nat.sub_sub_self hlt.le] at hrot
        rw [Intrinsic.eval, toNat_mod_of_lt hsz hlt, hrot]

/-- A truncation. LLVM's `trunc` takes an integer only, and the source does not coerce. -/
theorem does_trunc {fromSz toSz : Int} {va : Val} {x : BitVec (iBits fromSz)}
    {Q : Val → Context → State → Prop} (hlt : iBits toSz < iBits fromSz)
    (ha : Operand act c s va _ x) (hty : va.getType ≠ ptrTy)
    (h : ∀ v c' s', Quiet c c' s s' →
      IntResult act c' s' v _ (BitVec.ofInt (iBits toSz) x.toNat) → Q v c' s') :
    ((Pure.TRUNC fromSz toSz : Pure .cpp).codegen [va]).Does act c s Q := by
  obtain ⟨w, hw, rfl, hta⟩ := ha
  replace hta := hta.resolve_right hty
  have hlow : w.setWidth (iBits toSz)
      = BitVec.ofInt (iBits toSz) ((w.setWidth (iBits fromSz)).toNat : Nat) := by
    apply BitVec.eq_of_toNat_eq
    rw [BitVec.ofInt_natCast, BitVec.toNat_ofNat, BitVec.toNat_setWidth, BitVec.toNat_setWidth,
      Nat.mod_mod_of_dvd _ (Nat.pow_dvd_pow 2 hlt.le)]
  refine .bind (.argAt rfl (.createCast hw (fun he => ?_) (fun _ => ⟨?_, ?_⟩)
    fun v c' s' hq hv ht => h v c' s' hq ⟨hv, ht⟩))
  · rw [hta] at he
    injection he with he
    omega
  · simpa [CastOp.wellTyped, hta, Ty.isIntegerTy, iType, Ty.bits] using hlt
  · show some _ = some _
    rw [← hlow]
    rfl

/-- An operator that has a meaning for one operand is one of the integer arithmetic. -/
theorem isIntOp_of_denote₁ {op : Pureop} {n : Nat} {x : BitVec n} {r s : Int}
    (hr : op.denote [x] = some r) : (Pure.PURE_ARITH (.con op) s : Pure .cpp).isIntOp = true := by
  cases op <;> first | rfl | cases hr

/-- An operator that has a meaning for one operand passes it on as it is: there is no unary
instruction. -/
theorem passesOperands_of_denote₁ {op : Pureop} {n : Nat} {x : BitVec n} {r s : Int}
    (hr : op.denote [x] = some r) :
    (Pure.PURE_ARITH (.con op) s : Pure .cpp).passesOperands = true := by
  cases op <;> first | rfl | cases hr

/-- An operator that has a meaning for two operands is one of the integer arithmetic. -/
theorem isIntOp_of_denote₂ {op : Pureop} {n : Nat} {x y : BitVec n} {r s : Int}
    (hr : op.denote [x, y] = some r) :
    (Pure.PURE_ARITH (.con op) s : Pure .cpp).isIntOp = true := by
  cases op <;> first | rfl | cases hr

/-- A pointer that is passed on as it is is ill typed, so the code cannot be executed. -/
theorem exec_arith₁_ptr {op : Pureop} {sz : Int} {va : Val} {n : Nat} {x : BitVec n} {r : Int}
    (hr : op.denote [x] = some r) (hty : va.getType = ptrTy) :
    ((Pure.PURE_ARITH (.con op) sz : Pure .cpp).codegen [va]).exec act c s = none := by
  cases op <;> simp only [Pureop.denote, reduceCtorEq] at hr <;>
    simp [Pure.codegen, exec_bind, argAt, Gen.deref, exec, inst, Op.wellTyped, Intrinsic.argTys,
      hty]

/-- The same for either operand of a rotation. -/
theorem exec_arith₂_ptr {op : Pureop} {sz : Int} {va vb : Val} {n : Nat} {x y : BitVec n} {r : Int}
    (hop : op.binOp = none) (hr : op.denote [x, y] = some r)
    (hty : va.getType = ptrTy ∨ vb.getType = ptrTy) :
    ((Pure.PURE_ARITH (.con op) sz : Pure .cpp).codegen [va, vb]).exec act c s = none := by
  cases op <;> simp only [Pureop.binOp, reduceCtorEq] at hop <;>
    simp only [Pureop.denote, reduceCtorEq] at hr <;> rcases hty with hty | hty <;>
    simp [Pure.codegen, exec_bind, argAt, Gen.deref, exec, inst, Op.wellTyped, Intrinsic.argTys,
      hty]

/-- The same for a truncation. -/
theorem exec_trunc_ptr {fromSz toSz : Int} {va : Val} (hty : va.getType = ptrTy) :
    ((Pure.TRUNC fromSz toSz : Pure .cpp).codegen [va]).exec act c s = none := by
  have hne : ptrTy ≠ iType toSz := nofun
  simp [Pure.codegen, createTrunc, createCast, exec_bind, argAt, Gen.deref, exec, inst, hty, hne,
    Op.wellTyped, CastOp.wellTyped, Ty.isIntegerTy]

end CfgPrim

namespace Cfg

open Codegen Gen IR

/-! ### Nested expressions -/

variable (act : Activation Sym) (c : Context) (s : State)

/-- The outermost operator is one of the integer arithmetic, so the value is an integer. -/
def Exp.isIntOp : Exp .cpp → Bool
  | .PURE oper _ => oper.isIntOp
  | _ => false

/-- The code of `e` does nothing but compute an operand, now and later: after any code that
computes only, it computes the same operand. -/
def Exp.Supplies (e : Exp .cpp) (n : Nat) (x : BitVec n) : Prop :=
  ∀ c₁ s₁, Quiet c c₁ s s₁ → e.codegen.Does act c₁ s₁ fun v c' s' =>
    Quiet c₁ c' s₁ s' ∧ Operand act c' s' v n x

/-- The meaning of an expression of the integer arithmetic: `n` bits. The
other expressions in it supply their values in either representation. -/
inductive Exp.Denotes : Exp .cpp → (n : Nat) → BitVec n → Prop
  | leaf {e : Exp .cpp} {n : Nat} {x : BitVec n} (hop : e.isIntOp = false) (hn : n ≤ 64)
      (h : e.Supplies act c s n x) : Denotes e n x
  | arith₁ {op : CfgPrim.Pureop} {sz : Int} {a : Exp .cpp} {x : BitVec (iBits sz)} {r : Int}
      (hsz : sz = 32 ∨ sz = 64) (ha : Denotes a (iBits sz) x) (hr : op.denote [x] = some r) :
      Denotes (.PURE (.PURE_ARITH (.con op) sz) [a]) (iBits sz) (BitVec.ofInt (iBits sz) r)
  | arith₂ {op : CfgPrim.Pureop} {sz : Int} {a b : Exp .cpp} {x y : BitVec (iBits sz)} {r : Int}
      (hsz : sz = 32 ∨ sz = 64) (ha : Denotes a (iBits sz) x) (hb : Denotes b (iBits sz) y)
      (hr : op.denote [x, y] = some r) :
      Denotes (.PURE (.PURE_ARITH (.con op) sz) [a, b]) (iBits sz) (BitVec.ofInt (iBits sz) r)
  | trunc {fromSz toSz : Int} {a : Exp .cpp} {x : BitVec (iBits fromSz)}
      (hlt : iBits toSz < iBits fromSz) (ha : Denotes a (iBits fromSz) x) :
      Denotes (.PURE (.TRUNC fromSz toSz) [a]) (iBits toSz)
        (BitVec.ofInt (iBits toSz) x.toNat)

/-- The code of an expression is well typed and computes `n` bits, and the
result of an operator is an integer of `n` bits. -/
def Exp.Computes (e : Exp .cpp) (n : Nat) (x : BitVec n) : Prop :=
  e.codegen.Does act c s fun v c' s' => Quiet c c' s s' ∧ Operand act c' s' v n x ∧
    (e.isIntOp = true → IntResult act c' s' v n x)

mutual

/-- No operand that is passed on as it is is a pointer, at any depth. The types are those that the
generator gives to the values, so the condition is one on the expression and the variables. -/
def Exp.coerced (c : Context) : Exp .cpp → Bool
  | .PURE oper args =>
      !oper.isIntOp || !(oper.passesOperands && (Exp.valTys c args).contains ptrTy) &&
        Exp.coercedArgs c args
  | _ => true

/-- The same for the operands of an operator, each of which may be an operation itself. -/
def Exp.coercedArgs (c : Context) : List (Exp .cpp) → Bool
  | [] => true
  | e :: es => e.coerced c && Exp.coercedArgs c es

end

variable {act : Activation Sym} {c : Context} {s : State}

mutual

/-- The condition depends on the variables and the register state only, which code that computes
leaves alone. -/
theorem Exp.coerced_congr {c c' : Context} (hv : c'.vMap = c.vMap)
    (hr : c'.regState = c.regState) : (e : Exp .cpp) → e.coerced c' = e.coerced c
  | .VAR name => rfl
  | .LABEL name => rfl
  | .NUM iv sz => rfl
  | .LOOKER oper args => rfl
  | .PURE oper args => by
      rw [Exp.coerced, Exp.coerced, Exp.valTys_congr hv hr, Exp.coercedArgs_congr hv hr args]
  | .SELECT idx arg => rfl

/-- The same for the operands. -/
theorem Exp.coercedArgs_congr {c c' : Context} (hv : c'.vMap = c.vMap)
    (hr : c'.regState = c.regState) :
    (es : List (Exp .cpp)) → Exp.coercedArgs c' es = Exp.coercedArgs c es
  | [] => rfl
  | e :: es => by
      rw [Exp.coercedArgs, Exp.coercedArgs, Exp.coerced_congr hv hr e,
        Exp.coercedArgs_congr hv hr es]

end

/-- The value that code computes has the type of its expression. The type is a function of the
expression, and so the two facts hold of the one value. -/
theorem Exp.Computes.getType {e : Exp .cpp} {n : Nat} {x : BitVec n} (h : e.Computes act c s n x) :
    e.codegen.Does act c s fun v c' s' => Quiet c c' s s' ∧ Operand act c' s' v n x ∧
      v.getType = e.valTy c := by
  obtain ⟨v, c', s', hrun, hq, hv, -⟩ := h
  exact ⟨v, c', s', hrun, hq, hv, e.getType_codegen (exec_eq_some.mp hrun).1⟩

/-- An operator with one operand, all at once. -/
theorem Exp.codegen_pure₁ (oper : CfgPrim.Pure .cpp) (a : Exp .cpp) :
    (Exp.PURE oper [a]).codegen = a.codegen >>= fun va => oper.codegen [va] := by
  simp only [Exp.codegen, Exp.codegenArgs, bind_assoc, pure_bind]

/-- An operator with two operands, from left to right. -/
theorem Exp.codegen_pure₂ (oper : CfgPrim.Pure .cpp) (a b : Exp .cpp) :
    (Exp.PURE oper [a, b]).codegen
      = a.codegen >>= fun va => b.codegen >>= fun vb => oper.codegen [va, vb] := by
  simp only [Exp.codegen, Exp.codegenArgs, bind_assoc, pure_bind]

/-- The condition for an operator with one operand, by cases. -/
theorem Exp.coerced_pure₁ {oper : CfgPrim.Pure .cpp} {a : Exp .cpp} (hint : oper.isIntOp = true) :
    (Exp.PURE oper [a]).coerced c = true ↔
      (oper.passesOperands = true → a.valTy c ≠ ptrTy) ∧ a.coerced c = true := by
  cases hp : oper.passesOperands <;>
    simp [Exp.coerced, Exp.coercedArgs, Exp.valTys, hint, hp, @eq_comm _ ptrTy]

/-- The condition for an operator with two operands, by cases. -/
theorem Exp.coerced_pure₂ {oper : CfgPrim.Pure .cpp} {a b : Exp .cpp}
    (hint : oper.isIntOp = true) :
    (Exp.PURE oper [a, b]).coerced c = true ↔
      (oper.passesOperands = true → a.valTy c ≠ ptrTy ∧ b.valTy c ≠ ptrTy) ∧
        a.coerced c = true ∧ b.coerced c = true := by
  cases hp : oper.passesOperands <;>
    simp [Exp.coerced, Exp.coercedArgs, Exp.valTys, hint, hp, @eq_comm _ ptrTy]

/-- Every operator coerces its operands, or none of them is a pointer: then the
code is right. -/
theorem Exp.Denotes.computes {e : Exp .cpp} {n : Nat} {x : BitVec n} (h : e.Denotes act c s n x) :
    ∀ c₁ s₁, Quiet c c₁ s s₁ → e.coerced c₁ = true → e.Computes act c₁ s₁ n x := by
  induction h with
  | leaf hop hn h =>
      intro c₁ s₁ hq hc
      refine (h c₁ s₁ hq).mono fun v c' s' hv => ⟨hv.1, hv.2, fun hop' => ?_⟩
      rw [hop] at hop'
      cases hop'
  | @arith₁ op sz a x r hsz ha hr iha =>
      intro c₁ s₁ hq hc
      obtain ⟨hpass, hca⟩ := (Exp.coerced_pure₁ (CfgPrim.isIntOp_of_denote₁ hr)).mp hc
      rw [Exp.Computes, Exp.codegen_pure₁]
      refine .bind ((iha c₁ s₁ hq hca).getType.mono fun va c₂ s₂ hva => ?_)
      obtain ⟨hq₂, hva, hty⟩ := hva
      have hpass' := hpass (CfgPrim.passesOperands_of_denote₁ hr)
      refine CfgPrim.does_arith₁ hsz hva (hty ▸ hpass') hr fun v c' s' hq' hv => ?_
      exact ⟨hq₂.trans hq', hv.operand (iBits_le sz), fun _ => hv⟩
  | @arith₂ op sz a b x y r hsz ha hb hr iha ihb =>
      intro c₁ s₁ hq hc
      obtain ⟨hpass, hca, hcb⟩ := (Exp.coerced_pure₂ (CfgPrim.isIntOp_of_denote₂ hr)).mp hc
      rw [Exp.Computes, Exp.codegen_pure₂]
      refine .bind ((iha c₁ s₁ hq hca).getType.mono fun va c₂ s₂ hva => ?_)
      obtain ⟨hq₂, hva, htya⟩ := hva
      have hcb₂ : b.coerced c₂ = true := by
        rw [Exp.coerced_congr hq₂.vMap hq₂.regState, hcb]
      refine .bind ((ihb c₂ s₂ (hq.trans hq₂) hcb₂).getType.mono fun vb c₃ s₃ hvb => ?_)
      obtain ⟨hq₃, hvb, htyb⟩ := hvb
      rw [Exp.valTy_congr hq₂.vMap hq₂.regState] at htyb
      refine CfgPrim.does_arith₂ hsz (hva.later hq₃.toLater) hvb (fun hop => ?_) hr
        fun v c' s' hq' hv => ?_
      · rw [htya, htyb]
        exact hpass (by simp [CfgPrim.Pure.passesOperands, hop])
      · exact ⟨hq₂.trans (hq₃.trans hq'), hv.operand (iBits_le sz), fun _ => hv⟩
  | @trunc fromSz toSz a x hlt ha iha =>
      intro c₁ s₁ hq hc
      obtain ⟨hpass, hca⟩ := (Exp.coerced_pure₁ rfl).mp hc
      rw [Exp.Computes, Exp.codegen_pure₁]
      refine .bind ((iha c₁ s₁ hq hca).getType.mono fun va c₂ s₂ hva => ?_)
      obtain ⟨hq₂, hva, hty⟩ := hva
      refine CfgPrim.does_trunc hlt hva (hty ▸ hpass rfl) fun v c' s' hq' hv => ?_
      exact ⟨hq₂.trans hq', hv.operand (iBits_le toSz), fun _ => hv⟩

/-- Code that fails fails in front of any other code. -/
theorem exec_bind_none {α β : Type} {g : Gen α} {f : α → Gen β} {c : Context} {s : State}
    (h : g.exec act c s = none) : (g >>= f).exec act c s = none := by
  rw [exec_bind, h]
  rfl

/-- Code that fails after other code: what comes before has an execution, and the rest has none
from there. -/
theorem exec_bind_of_does {α β : Type} {g : Gen α} {f : α → Gen β} {c : Context} {s : State}
    {Q : α → Context → State → Prop} (h : g.Does act c s Q)
    (hf : ∀ a c' s', Q a c' s' → (f a).exec act c' s' = none) :
    (g >>= f).exec act c s = none := by
  obtain ⟨a, c', s', hrun, hQ⟩ := h
  rw [exec_bind, hrun]
  exact hf a c' s' hQ

/-- A pointer is passed on as it is somewhere: then the code is ill typed. By induction on the
meaning, where the failing operand is found from left to right. -/
theorem Exp.Denotes.exec_eq_none {e : Exp .cpp} {n : Nat} {x : BitVec n}
    (h : e.Denotes act c s n x) :
    ∀ c₁ s₁, Quiet c c₁ s s₁ → e.coerced c₁ = false → e.codegen.exec act c₁ s₁ = none := by
  induction h with
  | @leaf e n x hop hn h =>
      intro c₁ s₁ hq hc
      cases e with
      | PURE oper args =>
          rw [Exp.isIntOp] at hop
          simp [Exp.coerced, hop] at hc
      | VAR name => cases hc
      | LABEL name => cases hc
      | NUM iv sz => cases hc
      | LOOKER oper args => cases hc
      | SELECT idx arg => cases hc
  | @arith₁ op sz a x r hsz ha hr iha =>
      intro c₁ s₁ hq hc
      rw [Exp.codegen_pure₁]
      cases hca : a.coerced c₁ with
      | false => exact exec_bind_none (iha c₁ s₁ hq hca)
      | true =>
          refine exec_bind_of_does (ha.computes c₁ s₁ hq hca).getType fun va c₂ s₂ hva => ?_
          have hiff := Exp.coerced_pure₁ (c := c₁) (a := a)
            (CfgPrim.isIntOp_of_denote₁ (s := sz) hr)
          refine CfgPrim.exec_arith₁_ptr hr ?_
          rw [hva.2.2]
          by_contra hne
          simp [hiff.mpr ⟨fun _ => hne, hca⟩] at hc
  | @arith₂ op sz a b x y r hsz ha hb hr iha ihb =>
      intro c₁ s₁ hq hc
      rw [Exp.codegen_pure₂]
      cases hca : a.coerced c₁ with
      | false => exact exec_bind_none (iha c₁ s₁ hq hca)
      | true =>
          refine exec_bind_of_does (ha.computes c₁ s₁ hq hca).getType fun va c₂ s₂ hva => ?_
          obtain ⟨hq₂, -, htya⟩ := hva
          have hcong : b.coerced c₂ = b.coerced c₁ := Exp.coerced_congr hq₂.vMap hq₂.regState b
          cases hcb : b.coerced c₁ with
          | false => exact exec_bind_none (ihb c₂ s₂ (hq.trans hq₂) (hcong.trans hcb))
          | true =>
              refine exec_bind_of_does (hb.computes c₂ s₂ (hq.trans hq₂) (hcong.trans hcb)).getType
                fun vb c₃ s₃ hvb => ?_
              obtain ⟨-, -, htyb⟩ := hvb
              rw [Exp.valTy_congr hq₂.vMap hq₂.regState] at htyb
              have hiff := Exp.coerced_pure₂ (c := c₁) (a := a) (b := b)
                (CfgPrim.isIntOp_of_denote₂ (s := sz) hr)
              cases hop : op.binOp with
              | some b' =>
                  simp [hiff.mpr ⟨by simp [CfgPrim.Pure.passesOperands, hop], hca, hcb⟩] at hc
              | none =>
                  refine CfgPrim.exec_arith₂_ptr hop hr ?_
                  rw [htya, htyb]
                  by_contra hne
                  simp [hiff.mpr ⟨fun _ => not_or.mp hne, hca, hcb⟩] at hc
  | @trunc fromSz toSz a x hlt ha iha =>
      intro c₁ s₁ hq hc
      rw [Exp.codegen_pure₁]
      cases hca : a.coerced c₁ with
      | false => exact exec_bind_none (iha c₁ s₁ hq hca)
      | true =>
          refine exec_bind_of_does (ha.computes c₁ s₁ hq hca).getType fun va c₂ s₂ hva => ?_
          refine CfgPrim.exec_trunc_ptr ?_
          rw [hva.2.2]
          by_contra hne
          have hiff := Exp.coerced_pure₁ (c := c₁) (a := a)
            (show (CfgPrim.Pure.TRUNC fromSz toSz : CfgPrim.Pure .cpp).isIntOp = true from rfl)
          simp [hiff.mpr ⟨fun _ => hne, hca⟩] at hc

/-- The code of an expression of any depth is right exactly if no operator in it
passes a pointer on as it is. -/
theorem Exp.computes_iff {e : Exp .cpp} {n : Nat} {x : BitVec n} (h : e.Denotes act c s n x) :
    e.Computes act c s n x ↔ e.coerced c = true := by
  refine ⟨fun hdoes => ?_, h.computes c s (.refl c s)⟩
  by_contra hc
  obtain ⟨v, c', s', hrun, -⟩ := hdoes
  rw [h.exec_eq_none c s (.refl c s) (by simpa using hc)] at hrun
  cases hrun

/-! ### Operands -/

/-- A variable supplies the value it is bound to, at any later point, too. -/
theorem Exp.denotes_var {lv : LVar} {v : Val} {n : Nat} {x : BitVec n} (hv : c.vMap lv = some v)
    (hn : n ≤ 64) (hx : Operand act c s v n x) : (Exp.VAR lv).Denotes act c s n x := by
  refine .leaf rfl hn fun c₁ s₁ hq => ?_
  rw [Exp.codegen]
  refine .bind (.ask (.deref (by rw [hq.vMap, hv]) ?_))
  exact ⟨.refl _ _, hx.later hq.toLater⟩

/-- A field of a record is an ML value, if the field is promised not to change: the load is marked
invariant, and has no meaning otherwise. -/
theorem Exp.denotes_select {i : Int} {a : Exp .cpp} {p : Word} (hlo : -2 ^ 31 ≤ i)
    (hhi : i < 2 ^ 31) (ha : a.Supplies act c s 64 p)
    (hfixed : Mem.within act.host.fixed (p + BitVec.ofInt 64 (i * 8)).toNat 8 = true) :
    (Exp.SELECT i a).Denotes act c s 64 (s.load (p + BitVec.ofInt 64 (i * 8)) 8) := by
  refine .leaf rfl (Nat.le_refl _) fun c₁ s₁ hq => ?_
  rw [Exp.codegen]
  refine .bind ((ha c₁ s₁ hq).mono fun v c₂ s₂ hv => ?_)
  obtain ⟨hq₂, w, hw, rfl, hty⟩ := hv
  rw [BitVec.setWidth_eq] at hfixed ⊢
  have hint : v.getType = ptrTy ∨ v.getType.isIntegerTy = true := by
    rcases hty with h | h
    · exact .inr (by rw [h]; rfl)
    · exact .inl h
  refine .bind (.asPtr hw hint fun base c₃ s₃ hq₃ hbase htb => ?_)
  refine .bind (.createGEPConst hbase htb hlo hhi fun adr c₄ s₄ hq₄ hadr hta => ?_)
  have hmem : s₄.mem = s.mem := by rw [hq₄.mem, hq₃.mem, hq₂.mem, hq.mem]
  refine .inst (w := s.load (w + BitVec.ofInt 64 (i * 8)) 8) ?_ ?_ fun v' c' s' hq' hv' ht' => ?_
  · simp [Op.wellTyped, hta, Ty.isPointerTy]
  · have hload : s₄.load (w + BitVec.ofInt 64 (i * 8)) ptrTy.bytes
        = s.load (w + BitVec.ofInt 64 (i * 8)) 8 := by
      rw [State.load, hmem]
      rfl
    rw [Op.step_loadInvariant ptrTy hadr.eval hfixed, hload]
  · exact ⟨hq₂.trans (hq₃.trans (hq₄.trans hq')), _, hv', BitVec.setWidth_eq _, .inr ht'⟩

/-- A function whose two variables are an ML value and an integer, for the examples below. -/
def mlVars : Context :=
  { Context.create x86_64Info with
    vMap := fun lv =>
      if lv = 1 then some (.arg 0 ptrTy) else if lv = 2 then some (.arg 1 intTy) else none }

/-- An activation of it with two words. -/
def mlArgs (x y : Word) : Activation Sym where
  host := .plain
  args := [some x, some y]

/-- The two variables supply the two words. -/
theorem denotes_mlVars (x y : Word) (s : State) :
    (Exp.VAR 1).Denotes (mlArgs x y) mlVars s 64 x ∧
      (Exp.VAR 2).Denotes (mlArgs x y) mlVars s 64 y :=
  ⟨Exp.denotes_var rfl (Nat.le_refl _) ⟨x, ⟨trivial, rfl⟩, BitVec.setWidth_eq x, .inr rfl⟩,
    Exp.denotes_var rfl (Nat.le_refl _) ⟨y, ⟨trivial, rfl⟩, BitVec.setWidth_eq y, .inl rfl⟩⟩

/-- A 64-bit operation. -/
abbrev arith64 (op : CfgPrim.Pureop) (args : List (Exp .cpp)) : Exp .cpp :=
  .PURE (.PURE_ARITH (.con op) 64) args

/-- The sum of an ML value and a rotated sum. The inner sum is coerced, so the rotation gets
integers. -/
theorem computes_add_rotl :
    (arith64 .ADD [.VAR 1, arith64 .ROTL [arith64 .ADD [.VAR 1, .VAR 2], .VAR 2]]).Computes
      (mlArgs 6 3) mlVars ⟨fun _ => [], fun _ => 0, []⟩ 64 (BitVec.ofInt 64 78) := by
  obtain ⟨h₁, h₂⟩ := denotes_mlVars 6 3 ⟨fun _ => [], fun _ => 0, []⟩
  have hadd : (arith64 .ADD [.VAR 1, .VAR 2]).Denotes (mlArgs 6 3) mlVars
      ⟨fun _ => [], fun _ => 0, []⟩ 64 (BitVec.ofInt 64 9) :=
    .arith₂ (.inr rfl) h₁ h₂ (by decide)
  have hrotl : (arith64 .ROTL [arith64 .ADD [.VAR 1, .VAR 2], .VAR 2]).Denotes (mlArgs 6 3) mlVars
      ⟨fun _ => [], fun _ => 0, []⟩ 64 (BitVec.ofInt 64 72) :=
    .arith₂ (.inr rfl) hadd h₂ (by decide)
  exact (Exp.computes_iff (.arith₂ (.inr rfl) h₁ hrotl (by decide))).mpr (by decide)

/-- The code that counts the bits of an ML value is ill typed, although the operation has a
meaning. -/
theorem not_computes_cntpop :
    (arith64 .CNTPOP [.VAR 1]).Denotes (mlArgs 6 3) mlVars ⟨fun _ => [], fun _ => 0, []⟩ 64
      (BitVec.ofInt 64 2) ∧
    ¬ (arith64 .CNTPOP [.VAR 1]).Computes (mlArgs 6 3) mlVars ⟨fun _ => [], fun _ => 0, []⟩ 64
      (BitVec.ofInt 64 2) := by
  obtain ⟨h₁, -⟩ := denotes_mlVars 6 3 ⟨fun _ => [], fun _ => 0, []⟩
  have hcnt : (arith64 .CNTPOP [.VAR 1]).Denotes (mlArgs 6 3) mlVars
      ⟨fun _ => [], fun _ => 0, []⟩ 64 (BitVec.ofInt 64 2) :=
    .arith₁ (.inr rfl) h₁ (by decide)
  refine ⟨hcnt, fun hdoes => ?_⟩
  obtain ⟨v, c', s', hrun, -⟩ := hdoes
  rw [hcnt.exec_eq_none mlVars _ (.refl _ _) rfl] at hrun
  cases hrun

end Cfg

end SmlnjCfg
