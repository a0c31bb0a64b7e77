import SmlnjCfg.Codegen.Tracks

/-!
# `SmlnjCfg.Codegen.Eval`: the code of expressions

The code of an expression computes the value that the machine gives to it, and
does nothing else.

* `Looker.does_eval`, `Pure.does_eval`: the primitive operations.
* `Exp.does_eval`: expressions of any depth.
* `Exp.exec_select`: a `SELECT` of memory that may change is undefined.
-/

set_option autoImplicit false

namespace SmlnjCfg

namespace Codegen.Gen.Does

open Cfg IR

variable {act : Activation Sym} {M : Machine} {ρ : Env} {σ : MState} {c : Context} {s : State}

/-- A load of an ML value: what is in the memory of the machine. -/
theorem loadML {adr : Val} {align : Nat} {a : Word} {Q : Val → Context → State → Prop}
    (ht : Tracks act M ρ σ c s) (ha : Is act c s adr a) (hta : adr.getType = ptrTy)
    (h : ∀ v' c' s', Quiet c c' s s' → Holds act c' s' v' (.ml (σ.load a)) → Q v' c' s') :
    (Gen.inst (.load ptrTy adr align) ptrTy).Does act c s Q :=
  loadWord ht ha hta rfl fun v' c' s' hq hv hty => h v' c' s' hq (.ofPtr hv hty)

/-- An invariant load of an ML value, from memory that is promised to stay the same. -/
theorem loadInvariant {adr : Val} {align : Nat} {a : Word} {Q : Val → Context → State → Prop}
    (ht : Tracks act M ρ σ c s) (ha : Is act c s adr a) (hta : adr.getType = ptrTy)
    (hfixed : Mem.within M.fixed a.toNat 8 = true)
    (h : ∀ v' c' s', Quiet c c' s s' → Holds act c' s' v' (.ml (σ.load a)) → Q v' c' s') :
    (Gen.inst (.loadInvariant ptrTy adr align) ptrTy).Does act c s Q := by
  rw [← ht.linked.fixed] at hfixed
  refine inst ?_ (Op.step_loadInvariant ptrTy ha.eval hfixed) fun v' c' s' hq hv hty => ?_
  · simp [Op.wellTyped, hta, Ty.isPointerTy]
  · have hload : s.load a ptrTy.bytes = σ.load a := ht.load a
    exact h v' c' s' hq (.ofPtr (hload ▸ hv) hty)

/-- A load of a field that is a word, as a native integer. -/
theorem loadField {kind : Tagged CfgPrim.Numkind} {sz : Int} {adr : Val} {align : Nat} {a : Word}
    {Q : Val → Context → State → Prop} (hf : CfgPrim.isWordField kind sz = true)
    (ht : Tracks act M ρ σ c s) (ha : Is act c s adr a) (hta : adr.getType = ptrTy)
    (h : ∀ v' c' s', Quiet c c' s s' → Holds act c' s' v' (.int (σ.load a)) → Q v' c' s') :
    (Gen.inst (.load (numType kind sz) adr align) (numType kind sz)).Does act c s Q := by
  obtain ⟨rfl, rfl⟩ : kind = .con .INT ∧ sz = 64 := by simpa [CfgPrim.isWordField] using hf
  exact loadWord ht ha hta rfl fun v' c' s' hq hv hty => h v' c' s' hq (.ofInt hv hty)

/-- The address of a byte, whose index has to be an integer for LLVM already. -/
theorem gepByte {base idx : Val} {v i : MLVal} {Q : Val → Context → State → Prop}
    (hb : Holds act c s base v) (hi : Holds act c s idx i) (hint : i.isInt = true)
    (h : ∀ v' c' s', Quiet c c' s s' → Is act c' s' v' (v.word + i.word) → v'.getType = ptrTy →
      Q v' c' s') : (Codegen.createGEPTy i8Ty base idx).Does act c s Q := by
  refine createGEPTy hb hi.is (hi.int hint) fun v' c' s' hq hv hty => h v' c' s' hq ?_ hty
  have hone : i.word * BitVec.ofNat 64 i8Ty.bytes = i.word := BitVec.mul_one _
  rwa [hone] at hv

/-- The address of an element of a sequence of words, by an index that is an integer already. -/
theorem gepElem {elem : IR.Ty} {base idx : Val} {v i : MLVal} {Q : Val → Context → State → Prop}
    (hbytes : elem.bytes = 8) (hb : Holds act c s base v) (hi : Holds act c s idx i)
    (hint : i.isInt = true)
    (h : ∀ v' c' s', Quiet c c' s s' → Is act c' s' v' (v.word + i.word * 8) →
      v'.getType = ptrTy → Q v' c' s') : (Codegen.createGEPTy elem base idx).Does act c s Q := by
  refine createGEPTy hb hi.is (hi.int hint) fun v' c' s' hq hv hty => h v' c' s' hq ?_ hty
  rw [hbytes] at hv
  exact hv

/-- The address of an element of an array of ML values, by an index that is coerced first. -/
theorem gepML {β : Type} {base idx : Val} {a : Word} {i : MLVal} {k : Val → Gen β}
    {Q : β → Context → State → Prop} (hb : Is act c s base a) (htb : base.getType = ptrTy)
    (hi : Holds act c s idx i)
    (h : ∀ adr c' s', Quiet c c' s s' → Is act c' s' adr (a + i.word * 8) →
      adr.getType = ptrTy → (k adr).Does act c' s' Q) :
    (Codegen.asInt idx >>= fun i => Codegen.createGEP base i >>= k).Does act c s Q := by
  refine bind (asInt hi.is hi.like fun idx' c₁ s₁ hq₁ hi' hti => bind ?_)
  exact gepWord (hb.later hq₁.toLater) htb hi' hti fun adr c' s' hq hadr hta =>
    h adr c' s' (hq₁.trans hq) hadr hta

end Codegen.Gen.Does

namespace CfgPrim

open Cfg Codegen Gen IR

variable {act : Activation Sym} {M : Machine} {ρ : Env} {σ : MState} {c : Context} {s : State}
  {us : List Val} {vs : List MLVal} {v : MLVal}

/-- A field that is one native word takes eight bytes. -/
theorem numType_bytes_of_isWordField {kind : Tagged Numkind} {sz : Int}
    (h : isWordField kind sz = true) : (numType kind sz).bytes = 8 := by
  obtain ⟨rfl, rfl⟩ : kind = .con .INT ∧ sz = 64 := by simpa [isWordField] using h
  rfl

/-- The code of a `looker` reads what the machine reads, and changes nothing. -/
theorem Looker.does_eval {oper : Looker .cpp} (ht : Tracks act M ρ σ c s)
    (hus : List.Forall₂ (Holds act c s) us vs) (h : oper.eval M σ vs = some v) :
    (oper.codegen us).Does act c s fun u c' s' => Quiet c c' s s' ∧ Holds act c' s' u v := by
  cases oper with
  | DEREF =>
      obtain _ | ⟨ha, _ | ⟨_, _⟩⟩ := hus <;> cases h
      refine .bind (.argAt rfl (.bind (.asPtr ha.is ha.ptrOrInt fun b c₁ s₁ hq₁ hb hty => ?_)))
      exact .loadML (ht.quiet hq₁) hb hty fun u c' s' hq hu => ⟨hq₁.trans hq, hu⟩
  | SUBSCRIPT =>
      obtain _ | ⟨ha, _ | ⟨hi, _ | ⟨_, _⟩⟩⟩ := hus <;> cases h
      refine .bind (.argAt rfl (.bind (.asPtr ha.is ha.ptrOrInt fun b c₁ s₁ hq₁ hb htb => ?_)))
      refine .bind (.argAt rfl ?_)
      refine .gepML hb htb (hi.later hq₁.toLater) fun adr c₂ s₂ hq₂ hadr hta => ?_
      have hq := hq₁.trans hq₂
      exact .loadML (ht.quiet hq) hadr hta fun u c' s' hq' hu => ⟨hq.trans hq', hu⟩
  | RAW_LOAD kind sz =>
      obtain _ | ⟨ha, _ | ⟨hi, _ | ⟨_, _⟩⟩⟩ := hus <;> try cases h
      obtain ⟨⟨hf, hint⟩, ⟨⟩⟩ := Option.ite_none_right_eq_some.mp h
      refine .bind (.argAt rfl (.bind (.argAt rfl (.bind ?_))))
      refine .gepByte ha hi hint fun adr c₁ s₁ hq₁ hadr hta => ?_
      exact .loadField hf (ht.quiet hq₁) hadr hta fun u c' s' hq hu => ⟨hq₁.trans hq, hu⟩
  | RAW_SUBSCRIPT kind sz =>
      obtain _ | ⟨ha, _ | ⟨hi, _ | ⟨_, _⟩⟩⟩ := hus <;> try cases h
      obtain ⟨⟨hf, hint⟩, ⟨⟩⟩ := Option.ite_none_right_eq_some.mp h
      refine .bind (.argAt rfl (.bind (.argAt rfl (.bind ?_))))
      refine .gepElem (numType_bytes_of_isWordField hf) ha hi hint fun adr c₁ s₁ hq₁ hadr hta => ?_
      exact .loadField hf (ht.quiet hq₁) hadr hta fun u c' s' hq hu => ⟨hq₁.trans hq, hu⟩
  | GET_HDLR =>
      obtain rfl : MLVal.ml (M.getReg σ .EXN_HNDLR) = v := Option.some.inj (by simpa [eval] using h)
      exact .readReg ht fun u c' s' hq hu => ⟨hq, hu⟩
  | GET_VAR =>
      obtain rfl : MLVal.ml (M.getReg σ .VAR_PTR) = v := Option.some.inj (by simpa [eval] using h)
      exact .readReg ht fun u c' s' hq hu => ⟨hq, hu⟩

/-- An integer operation on words: the operator's own meaning, for coerced operands or for
integers. -/
theorem Pure.does_arith {op : Pureop} (hus : List.Forall₂ (Holds act c s) us vs)
    (hint : op.binOp.isSome = true ∨ vs.all (·.isInt) = true) {r : Int}
    (hr : op.denote (vs.map (·.word)) = some r) :
    ((Pure.PURE_ARITH (.con op) 64 : Pure .cpp).codegen us).Does act c s fun u c' s' =>
      Quiet c c' s s' ∧ Holds act c' s' u (.int (BitVec.ofInt 64 r)) := by
  have hres : ∀ {u : Val} {c' : Context} {s' : State},
      IntResult act c' s' u (iBits 64) (BitVec.ofInt (iBits 64) r) →
      Holds act c' s' u (.int (BitVec.ofInt 64 r)) := by
    intro u c' s' hu
    have hu' : IntResult act c' s' u 64 (BitVec.ofInt 64 r) := hu
    refine .ofInt ?_ hu'.getType
    rw [← BitVec.setWidth_eq (BitVec.ofInt 64 r)]
    exact hu'.is
  have hne : ∀ {u : Val} {v : MLVal}, Holds act c s u v → v.isInt = true → u.getType ≠ ptrTy := by
    intro u v hu hv hty
    rw [hu.int hv] at hty
    cases hty
  match hus with
  | .nil => cases op <;> cases hr
  | .cons ha .nil =>
      have hno : op.binOp.isSome ≠ true := by
        have hpass := passesOperands_of_denote₁ (s := 64) hr
        simpa [passesOperands] using hpass
      have hall := hint.resolve_left hno
      simp only [List.all_cons, List.all_nil, Bool.and_true] at hall
      exact does_arith₁ (.inr rfl) ha.operand (hne ha hall) hr fun u c' s' hq hu => ⟨hq, hres hu⟩
  | .cons ha (.cons hb .nil) =>
      refine does_arith₂ (.inr rfl) ha.operand hb.operand (fun hno => ?_) hr
        fun u c' s' hq hu => ⟨hq, hres hu⟩
      have hall := hint.resolve_left (by simp [hno])
      simp only [List.all_cons, List.all_nil, Bool.and_true, Bool.and_eq_true] at hall
      exact ⟨hne ha hall.1, hne hb hall.2⟩
  | .cons _ (.cons _ (.cons _ _)) => cases op <;> cases hr

/-- The code of a `pure` computes what the machine computes, with one case for each operation that
the machine knows. -/
theorem Pure.does_eval {oper : Pure .cpp} (ht : Tracks act M ρ σ c s)
    (hus : List.Forall₂ (Holds act c s) us vs) (h : oper.eval σ vs = some v) :
    (oper.codegen us).Does act c s fun u c' s' => Quiet c c' s s' ∧ Holds act c' s' u v := by
  cases oper with
  | PURE_ARITH op sz =>
      cases op with
      | undeclared tag => cases h
      | con op =>
          obtain ⟨⟨rfl, hint⟩, hv⟩ := Option.ite_none_right_eq_some.mp h
          obtain ⟨r, hr, rfl⟩ := Option.map_eq_some_iff.mp hv
          exact does_arith hus hint hr
  | EXTEND signed fromSz toSz =>
      obtain _ | ⟨ha, _ | ⟨_, _⟩⟩ := hus <;> try cases h
      obtain ⟨⟨rfl, rfl⟩, ⟨⟩⟩ := Option.ite_none_right_eq_some.mp h
      refine .bind (.argAt rfl ?_)
      rcases ha.cases with hty | hty
      · -- nothing is left to extend
        rw [if_pos (by rw [hty]; exact nofun)]
        refine .createCast ha.is (fun _ => rfl) (fun hne => absurd hty hne)
          fun u c' s' hq hu hty' => ⟨hq, hu, ?_⟩
        rw [hty', ← ha.getType, hty]
        rfl
      · rw [if_neg (by simp [hty])]
        exact .bind (.assert rfl (.bind (.assert rfl (.pure ⟨.refl c s, ha⟩))))
  | PURE_SUBSCRIPT =>
      obtain _ | ⟨ha, _ | ⟨hi, _ | ⟨_, _⟩⟩⟩ := hus <;> cases h
      refine .bind (.argAt rfl (.bind (.asPtr ha.is ha.ptrOrInt fun b c₁ s₁ hq₁ hb htb => ?_)))
      refine .bind (.argAt rfl ?_)
      refine .gepML hb htb (hi.later hq₁.toLater) fun adr c₂ s₂ hq₂ hadr hta => ?_
      have hq := hq₁.trans hq₂
      exact .loadML (ht.quiet hq) hadr hta fun u c' s' hq' hu => ⟨hq.trans hq', hu⟩
  | PURE_RAW_SUBSCRIPT kind sz =>
      obtain _ | ⟨ha, _ | ⟨hi, _ | ⟨_, _⟩⟩⟩ := hus <;> try cases h
      obtain ⟨⟨hf, hint⟩, ⟨⟩⟩ := Option.ite_none_right_eq_some.mp h
      refine .bind (.argAt rfl (.bind (.argAt rfl (.bind ?_))))
      refine .gepElem (numType_bytes_of_isWordField hf) ha hi hint fun adr c₁ s₁ hq₁ hadr hta => ?_
      exact .loadField hf (ht.quiet hq₁) hadr hta fun u c' s' hq hu => ⟨hq₁.trans hq, hu⟩
  | RAW_SELECT kind sz offset =>
      obtain _ | ⟨ha, _ | ⟨_, _⟩⟩ := hus <;> try cases h
      obtain ⟨hf, ⟨⟩⟩ := Option.ite_none_right_eq_some.mp h
      refine .bind (.argAt rfl (.bind (.asPtr ha.is ha.ptrOrInt fun b c₁ s₁ hq₁ hb htb => ?_)))
      refine .bind (.gepByte (i := .int (BitVec.ofInt 64 offset)) (.ofPtr hb htb)
        (.ofInt (.uConst act c₁ s₁ _) rfl) rfl fun adr c₂ s₂ hq₂ hadr hta => ?_)
      have hq := hq₁.trans hq₂
      exact .loadField hf (ht.quiet hq) hadr hta fun u c' s' hq' hu => ⟨hq.trans hq', hu⟩
  | TRUNC fromSz toSz => cases h
  | INT_TO_FLOAT fromSz toSz => cases h
  | FLOAT_TO_BITS sz => cases h
  | BITS_TO_FLOAT sz => cases h

end CfgPrim

namespace Cfg

open Codegen Gen IR

variable {act : Activation Sym} {M : Machine} {ρ : Env} {σ : MState}

/-- The address of the code of a label. With PC-relative addressing it is the alias of the
function, whose address is given. -/
theorem does_evalLabel {c : Context} {s : State} {lab : LVar} {f : Frag .cpp}
    (ht : Tracks act M ρ σ c s) (hf : M.entry lab = some f) :
    (evalLabel lab).Does act c s fun u c' s' =>
      Quiet c c' s s' ∧ Holds act c' s' u (.ml (M.label lab)) := by
  obtain ⟨cf, hcf, hexp⟩ := ht.linked.clusters lab f hf
  refine .bind (.ask (.bind (.deref hcf (.bind (.ask ?_)))))
  rw [if_pos (ht.linked.target ▸ ht.linked.pcRel)]
  exact .bind (.memoize (.pure ⟨.use c s _, .ofPtr ⟨trivial, congrArg some hexp.label⟩ rfl⟩))

/-- A native integer, which the source takes as signed or unsigned by its sign. -/
theorem does_num {c : Context} {s : State} {iv : Asdl.Integer} {w : Word}
    (h : (if iv.getSign < 0 then iv.toInt64 else iv.toUInt64) = some w) :
    (Exp.NUM iv 64 : Exp .cpp).codegen.Does act c s fun u c' s' =>
      Quiet c c' s s' ∧ Holds act c' s' u (.int w) := by
  rw [Exp.codegen]
  split at h
  next hneg =>
    rw [if_pos hneg]
    refine .bind (.deref h (.pure ⟨.refl c s, .ofInt ?_ rfl⟩))
    have hw := Is.uConst act c s w
    have hconst : iConstSz 64 w.toInt = uConst w := by
      show IR.Value.const 64 (BitVec.ofInt 64 w.toInt).toNat = .const 64 (w.setWidth 64).toNat
      rw [BitVec.ofInt_toInt, BitVec.setWidth_eq]
    rwa [hconst]
  next hneg =>
    rw [if_neg hneg]
    exact .bind (.deref h (.pure ⟨.refl c s, .ofInt (.uConst act c s w) rfl⟩))

mutual

/-- The code of an expression computes its value, by recursion on the expression. No store comes
in between, so that every operand still holds when the operation is made. -/
theorem Exp.does_eval : (e : Exp .cpp) → {c : Context} → {s : State} → {v : MLVal} →
    Tracks act M ρ σ c s → e.eval M ρ σ = some v →
    e.codegen.Does act c s fun u c' s' => Quiet c c' s s' ∧ Holds act c' s' u v
  | .VAR name, c, s, v, ht, h => by
      obtain ⟨u, hu, hv⟩ := ht.env name v h
      rw [Exp.codegen]
      exact .bind (.ask (.deref hu ⟨.refl c s, hv⟩))
  | .LABEL name, c, s, v, ht, h => by
      obtain ⟨f, hf, rfl⟩ := Option.map_eq_some_iff.mp h
      exact does_evalLabel ht hf
  | .NUM iv sz, c, s, v, ht, h => by
      obtain ⟨rfl, h⟩ := Option.ite_none_right_eq_some.mp h
      obtain ⟨w, hw, rfl⟩ := Option.map_eq_some_iff.mp h
      exact does_num hw
  | .LOOKER oper args, c, s, v, ht, h => by
      obtain ⟨vs, hvs, hv⟩ := Option.bind_eq_some_iff.mp h
      rw [Exp.codegen]
      refine .bind ((Exp.does_evalArgs args ht hvs).mono fun us c₁ s₁ hus => ?_)
      refine (CfgPrim.Looker.does_eval (ht.quiet hus.1) hus.2 hv).mono fun u c' s' hu => ?_
      exact ⟨hus.1.trans hu.1, hu.2⟩
  | .PURE oper args, c, s, v, ht, h => by
      obtain ⟨vs, hvs, hv⟩ := Option.bind_eq_some_iff.mp h
      rw [Exp.codegen]
      refine .bind ((Exp.does_evalArgs args ht hvs).mono fun us c₁ s₁ hus => ?_)
      refine (CfgPrim.Pure.does_eval (ht.quiet hus.1) hus.2 hv).mono fun u c' s' hu => ?_
      exact ⟨hus.1.trans hu.1, hu.2⟩
  | .SELECT idx arg, c, s, v, ht, h => by
      obtain ⟨⟨hlo, hhi⟩, h⟩ := Option.ite_none_right_eq_some.mp h
      obtain ⟨a, ha, h⟩ := Option.bind_eq_some_iff.mp h
      obtain ⟨hfixed, ⟨⟩⟩ := Option.ite_none_right_eq_some.mp h
      rw [Exp.codegen]
      refine .bind ((Exp.does_eval arg ht ha).mono fun u c₁ s₁ hu => ?_)
      refine .bind (.asPtr hu.2.is hu.2.ptrOrInt fun b c₂ s₂ hq₂ hb htb => ?_)
      refine .bind (.createGEPConst hb htb hlo hhi fun adr c₃ s₃ hq₃ hadr hta => ?_)
      have hq := hu.1.trans (hq₂.trans hq₃)
      exact .loadInvariant (ht.quiet hq) hadr hta hfixed fun u c' s' hq' hu => ⟨hq.trans hq', hu⟩

/-- The code of arguments computes their values, the first of them being kept while the others are
computed. -/
theorem Exp.does_evalArgs : (es : List (Exp .cpp)) → {c : Context} → {s : State} →
    {vs : List MLVal} → Tracks act M ρ σ c s → Exp.evalArgs M ρ σ es = some vs →
    (Exp.codegenArgs es).Does act c s fun us c' s' =>
      Quiet c c' s s' ∧ List.Forall₂ (Holds act c' s') us vs
  | [], c, s, vs, ht, h => by
      cases h
      exact .pure ⟨.refl c s, .nil⟩
  | e :: es, c, s, vs, ht, h => by
      obtain ⟨v, hv, h⟩ := Option.bind_eq_some_iff.mp h
      obtain ⟨vs', hvs, h⟩ := Option.bind_eq_some_iff.mp h
      cases h
      rw [Exp.codegenArgs]
      refine .bind ((Exp.does_eval e ht hv).mono fun u c₁ s₁ hu => ?_)
      refine .bind ((Exp.does_evalArgs es (ht.quiet hu.1) hvs).mono fun us c₂ s₂ hus => ?_)
      exact .pure ⟨hu.1.trans hus.1, .cons (hu.2.later hus.1.toLater) hus.2⟩

end

/-- The code of a `SELECT` is undefined where the field is not promised to stay the same: its
load is marked as invariant. -/
theorem Exp.exec_select {c : Context} {s : State} {idx : Int} {arg : Exp .cpp} {a : MLVal}
    (ht : Tracks act M ρ σ c s) (ha : arg.eval M ρ σ = some a) (hlo : -2 ^ 31 ≤ idx) (hhi : idx < 2 ^ 31)
    (hfixed : Mem.within M.fixed (a.word + BitVec.ofInt 64 (idx * 8)).toNat 8 = false) :
    (Exp.SELECT idx arg).codegen.exec act c s = none := by
  rw [Exp.codegen]
  refine exec_bind_of_does (Exp.does_eval arg ht ha) fun u c₁ s₁ hu => ?_
  refine exec_bind_of_does (.asPtr hu.2.is hu.2.ptrOrInt fun b c₂ s₂ _ hb htb => ⟨hb, htb⟩)
    fun b c₂ s₂ (hb : Is act c₂ s₂ b a.word ∧ b.getType = ptrTy) => ?_
  refine exec_bind_of_does (.createGEPConst hb.1 hb.2 hlo hhi fun adr c₃ s₃ _ hadr _ => hadr)
    fun adr c₃ s₃ (hadr : Is act c₃ s₃ adr _) => ?_
  rw [← ht.linked.fixed] at hfixed
  have hstep : (Op.loadInvariant ptrTy adr ptrTy.bytes).step act c₃.nextId s₃ = none := by
    simp only [Op.step, hadr.eval, Option.bind_eq_bind, Option.bind_some]
    exact if_neg (by rw [show ptrTy.bytes = 8 from rfl, hfixed]; exact Bool.false_ne_true)
  rw [createLoadInvariant, Gen.inst, exec, hstep]
  exact ite_self _

end Cfg

end SmlnjCfg
