import SmlnjCfg.Codegen.Run
import SmlnjCfg.IR.Steps

/-!
# `SmlnjCfg.Codegen.Exec`: generating code and executing it

`Gen.exec` executes every instruction when it is generated, and stops at one
that is not well typed. `Gen.exec_eq_some` says that this is generating the
code first and executing it then. `Gen.Does` is total correctness: the code
is generated, it is well typed, its execution ends, and the result and the
state have a property. The rules follow the shorthands of
`Codegen.Builder`; a rule for a computation that stores nothing gives
`Quiet`.
-/

set_option autoImplicit false

namespace SmlnjCfg.Codegen

open IR

variable {α β : Type}

namespace Gen

/-- Generate code and execute each instruction at once. The code stops at an instruction that is
not well typed, which LLVM's verifier would reject, and at one whose execution is undefined. -/
def exec (act : Activation Sym) : Gen α → Context → State → Option (α × Context × State)
  | .ret a, c, s => some (a, c, s)
  | .fail _, _, _ => none
  | .read k, c, s => (k c).exec act c s
  | .emit o k, c, s =>
      if o.wellTyped then
        (o.step act c.nextId s).bind fun s' => (k c.nextId).exec act (c.emitOp o) s'
      else none
  | .setReg r v k, c, s => k.exec act (c.setReg r v) s
  | .use key k, c, s => k.exec act (c.use key) s

variable {act : Activation Sym}

/-- A sequence is generated and executed part by part. -/
theorem exec_bind (x : Gen α) (f : α → Gen β) (c : Context) (s : State) :
    (x >>= f).exec act c s
      = (x.exec act c s).bind fun p => (f p.1).exec act p.2.1 p.2.2 := by
  show (x.bind f).exec act c s = _
  induction x generalizing c s with
  | ret a => rfl
  | fail msg => rfl
  | read k ih => exact ih c c s
  | emit o k ih =>
      simp only [Gen.bind, exec, ih]
      split
      · rw [Option.bind_assoc]
      · rfl
  | setReg r v k ih => exact ih (c.setReg r v) s
  | use key k ih => exact ih (c.use key) s

end Gen

/-- The instructions that were appended are determined by the contexts: the later code is the
earlier one and then them, and each of them goes to the same block. -/
theorem Ext.unique {c c' : Context} {is js : List (Nat × Op Sym)} (h : Ext c c' is)
    (h' : Ext c c' js) : is = js := by
  have hi := congrArg (fun c => c.body.insts) h.frame
  have hj := congrArg (fun c => c.body.insts) h'.frame
  have heq := List.append_cancel_left (hi.symm.trans hj)
  refine List.map_injective_iff.mpr ?_ heq
  intro p q hpq
  simp only [Prod.mk.injEq, Inst.op.injEq, true_and] at hpq
  exact Prod.ext hpq.1 hpq.2

/-- Generating and executing at once is generating the code, which is well typed, and then
executing it. The induction is on the code, and in both directions an instruction is executed
before what comes after it is generated, although its number is all that this depends on. -/
theorem Gen.exec_eq_some {act : Activation Sym} {x : Gen α} {c c' : Context} {s s' : State}
    {a : α} : x.exec act c s = some (a, c', s') ↔
      x.run c = .ok (a, c') ∧ ∃ is, Ext c c' is ∧ (∀ p ∈ is, p.2.wellTyped = true) ∧
        steps act is s = some s' := by
  induction x generalizing c s with
  | ret b =>
      simp only [exec, run, Option.some.injEq, Prod.mk.injEq, Except.ok.injEq]
      constructor
      · rintro ⟨rfl, rfl, rfl⟩
        exact ⟨⟨rfl, rfl⟩, [], .refl c, by simp, rfl⟩
      · rintro ⟨⟨rfl, rfl⟩, is, hext, -, hsteps⟩
        rw [hext.unique (.refl c)] at hsteps
        exact ⟨rfl, rfl, Option.some.inj hsteps⟩
  | fail msg => simp [exec, run]
  | read k ih => exact ih c
  | setReg r v k ih =>
      refine (ih (c := c.setReg r v)).trans (and_congr_right fun hrun => ?_)
      constructor
      · rintro ⟨is, hext, hrest⟩
        exact ⟨is, (Ext.setReg c r v).trans hext, hrest⟩
      · rintro ⟨is, hext, hrest⟩
        -- The list is the one that the contexts determine, so it can be taken from the rest.
        obtain ⟨js, hjs⟩ := Gen.ext_of_run hrun
        rw [hext.unique ((Ext.setReg c r v).trans hjs)] at hrest
        exact ⟨js, hjs, hrest⟩
  | use key k ih =>
      refine (ih (c := c.use key)).trans (and_congr_right fun hrun => ?_)
      constructor
      · rintro ⟨is, hext, hrest⟩
        exact ⟨is, (Ext.use c key).trans hext, hrest⟩
      · rintro ⟨is, hext, hrest⟩
        obtain ⟨js, hjs⟩ := Gen.ext_of_run hrun
        rw [hext.unique ((Ext.use c key).trans hjs)] at hrest
        exact ⟨js, hjs, hrest⟩
  | emit o k ih =>
      rw [exec, run]
      constructor
      · intro h
        split at h
        next hty =>
          obtain ⟨s₁, hs₁, h⟩ := Option.bind_eq_some_iff.mp h
          obtain ⟨hrun, is, hext, htys, hsteps⟩ := (ih c.nextId).mp h
          refine ⟨hrun, (c.nextId, o) :: is, (Ext.emitOp c o).trans hext, ?_, ?_⟩
          · exact List.forall_mem_cons.mpr ⟨hty, htys⟩
          · rw [steps, hs₁]
            exact hsteps
        next => cases h
      -- Back: the first of the instructions is the one that is emitted here.
      · rintro ⟨hrun, is, hext, htys, hsteps⟩
        obtain ⟨js, hjs⟩ := Gen.ext_of_run hrun
        obtain rfl := hext.unique ((Ext.emitOp c o).trans hjs)
        rw [List.singleton_append] at htys hsteps
        obtain ⟨hty, htys⟩ := List.forall_mem_cons.mp htys
        obtain ⟨s₁, hs₁, hsteps⟩ := Option.bind_eq_some_iff.mp hsteps
        rw [if_pos hty, hs₁]
        exact (ih c.nextId).mpr ⟨hrun, js, hjs, htys, hsteps⟩

/-! ### What was computed before stays -/

/-- `c'` and `s'` come later than `c` and `s`: new results have new numbers, and old results are
what they were. It says nothing of the memory. -/
structure Later (c c' : Context) (s s' : State) : Prop where
  nextId_le : c.nextId ≤ c'.nextId
  regs : ∀ id < c.nextId, s'.regs id = s.regs id

namespace Later

/-- Now is no later than now. -/
theorem refl (c : Context) (s : State) : Later c c s s := ⟨Nat.le_refl _, fun _ _ => rfl⟩

/-- Later than later is later. -/
theorem trans {c c₁ c' : Context} {s s₁ s' : State} (h : Later c c₁ s s₁)
    (h' : Later c₁ c' s₁ s') : Later c c' s s' :=
  ⟨Nat.le_trans h.nextId_le h'.nextId_le, fun id hid =>
    (h'.regs id (Nat.lt_of_lt_of_le hid h.nextId_le)).trans (h.regs id hid)⟩

end Later

/-- Executing code that is being generated only goes forward, whether it stores or not. -/
theorem Gen.later_of_exec {act : Activation Sym} {x : Gen α} {c c' : Context} {s s' : State}
    {a : α} (h : x.exec act c s = some (a, c', s')) : Later c c' s s' := by
  induction x generalizing c s with
  | ret b =>
      simp only [exec, Option.some.injEq, Prod.mk.injEq] at h
      obtain ⟨-, rfl, rfl⟩ := h
      exact .refl c s
  | fail msg => cases h
  | read k ih => exact ih c h
  | setReg r v k ih =>
      have hk := ih h
      exact ⟨hk.nextId_le, hk.regs⟩
  | use key k ih =>
      have hk := ih h
      exact ⟨hk.nextId_le, hk.regs⟩
  | emit o k ih =>
      rw [exec] at h
      split at h
      · obtain ⟨s₁, hs₁, h⟩ := Option.bind_eq_some_iff.mp h
        have hk := ih _ h
        have hle : c.nextId + 1 ≤ c'.nextId := hk.nextId_le
        refine ⟨by omega, fun id hid => ?_⟩
        rw [hk.regs id (Nat.lt_succ_of_lt hid)]
        exact Op.step_regs hs₁ (Nat.ne_of_lt hid)
      · cases h

/-- `v` is computed already, and its value is `w`. The first part makes the second one last. -/
structure Is (act : Activation Sym) (c : Context) (s : State) (v : Val) (w : Word) : Prop where
  below : v.Below c.nextId
  eval : v.eval act s.regs = some w

/-- A value that is computed does not change. -/
theorem Is.later {act : Activation Sym} {c c' : Context} {s s' : State} {v : Val} {w : Word}
    (h : Is act c s v w) (hl : Later c c' s s') : Is act c' s' v w :=
  ⟨h.below.mono hl.nextId_le, (Value.eval_congr h.below hl.regs).trans h.eval⟩

/-- A constant is always computed. It is extended to a word with zeros, whatever its sign is in
the source. -/
theorem Is.const (act : Activation Sym) (c : Context) (s : State) (bits n : Nat) :
    Is act c s (.const bits n) ((BitVec.ofNat bits n).setWidth 64) := ⟨trivial, rfl⟩

/-- A word constant is the word. -/
theorem Is.uConst (act : Activation Sym) (c : Context) (s : State) (w : Word) :
    Is act c s (Codegen.uConst w) w := by
  refine ⟨trivial, ?_⟩
  show some ((BitVec.ofNat 64 (w.setWidth 64).toNat).setWidth 64) = some w
  rw [BitVec.ofNat_toNat, BitVec.setWidth_eq, BitVec.setWidth_eq, BitVec.setWidth_eq]

/-- Code that only computes: neither the memory nor a register of the runtime system changes, and
no variable is bound. -/
structure Quiet (c c' : Context) (s s' : State) : Prop extends Later c c' s s' where
  ctx : c' = { c with body := c'.body, nextId := c'.nextId, memo := c'.memo }
  mem : s'.mem = s.mem
  trace : s'.trace = s.trace

namespace Quiet

/-- No code. -/
theorem refl (c : Context) (s : State) : Quiet c c s s := ⟨.refl c s, rfl, rfl, rfl⟩

/-- Two such pieces of code in a row. -/
theorem trans {c c₁ c' : Context} {s s₁ s' : State} (h : Quiet c c₁ s s₁)
    (h' : Quiet c₁ c' s₁ s') : Quiet c c' s s' where
  toLater := h.toLater.trans h'.toLater
  ctx := by
    have hc := h'.ctx
    rw [h.ctx] at hc
    exact hc
  mem := h'.mem.trans h.mem
  trace := h'.trace.trans h.trace

/-- One quiet instruction. -/
theorem emitOp (c : Context) (s : State) (o : Op Sym) (ws : List Word) :
    Quiet c (c.emitOp o) s (s.setReg c.nextId ws) where
  nextId_le := Nat.le_succ _
  regs _ hid := State.regs_setReg_of_ne s ws (Nat.ne_of_lt hid)
  ctx := rfl
  mem := rfl
  trace := rfl

/-- A look into a cache. It adds no code, so nothing is executed. -/
theorem use (c : Context) (s : State) (key : MemoKey) : Quiet c (c.use key) s s :=
  ⟨⟨Nat.le_refl _, fun _ _ => rfl⟩, rfl, rfl, rfl⟩

/-- The registers keep their values. -/
theorem regState {c c' : Context} {s s' : State} (h : Quiet c c' s s') :
    c'.regState = c.regState := by rw [h.ctx]

/-- The target is the same. -/
theorem target {c c' : Context} {s s' : State} (h : Quiet c c' s s') :
    c'.target = c.target := by rw [h.ctx]

/-- The variables keep theirs. -/
theorem vMap {c c' : Context} {s s' : State} (h : Quiet c c' s s') :
    c'.vMap = c.vMap := by rw [h.ctx]

end Quiet

/-! ### Total correctness -/

/-- The code that `x` generates is well typed and its execution ends, with `Q` of the result, the
context and the state. There is no partial form of this: code that is undefined does nothing. -/
def Gen.Does (act : Activation Sym) (x : Gen α) (c : Context) (s : State)
    (Q : α → Context → State → Prop) : Prop :=
  ∃ a c' s', x.exec act c s = some (a, c', s') ∧ Q a c' s'

namespace Gen.Does

variable {act : Activation Sym} {c : Context} {s : State}

/-- A result, for which the property has to hold at once. -/
theorem pure {a : α} {Q : α → Context → State → Prop} (h : Q a c s) :
    (Pure.pure a : Gen α).Does act c s Q := ⟨a, c, s, rfl, h⟩

/-- The rule for a sequence, in the style of weakest preconditions: what the first part is to do
is that the second does the rest. -/
theorem bind {x : Gen α} {f : α → Gen β} {Q : β → Context → State → Prop}
    (h : x.Does act c s fun a c' s' => (f a).Does act c' s' Q) : (x >>= f).Does act c s Q := by
  obtain ⟨a, c₁, s₁, hx, b, c', s', hf, hQ⟩ := h
  exact ⟨b, c', s', by rw [exec_bind, hx]; exact hf, hQ⟩

/-- The rule of consequence. -/
theorem mono {x : Gen α} {Q Q' : α → Context → State → Prop} (h : x.Does act c s Q)
    (hQ : ∀ a c' s', Q a c' s' → Q' a c' s') : x.Does act c s Q' := by
  obtain ⟨a, c', s', hx, h⟩ := h
  exact ⟨a, c', s', hx, hQ a c' s' h⟩

/-- What is asked is what is in the context. -/
theorem ask {f : Context → α} {Q : α → Context → State → Prop} (h : Q (f c) c s) :
    (Gen.ask f).Does act c s Q := ⟨f c, c, s, rfl, h⟩

/-- An assertion has to hold. -/
theorem assert {p : Bool} {msg : String} {Q : Unit → Context → State → Prop} (hp : p = true)
    (h : Q () c s) : (Gen.assert p msg).Does act c s Q := by
  subst hp
  exact ⟨(), c, s, rfl, h⟩

/-- A value has to be there. -/
theorem deref {o : Option α} {msg : String} {a : α} {Q : α → Context → State → Prop}
    (ho : o = some a) (h : Q a c s) : (Gen.deref o msg).Does act c s Q := by
  subst ho
  exact ⟨a, c, s, rfl, h⟩

/-- A look into a cache, which the property may see in the context. -/
theorem memoize {key : MemoKey} {Q : Unit → Context → State → Prop} (h : Q () (c.use key) s) :
    (Gen.memoize key).Does act c s Q := ⟨(), c.use key, s, rfl, h⟩

/-- A well-typed instruction with a word as its result. What follows knows the value and its type
and not which instruction it was. -/
theorem inst {o : Op Sym} {ty : Ty} {w : Word} {Q : Val → Context → State → Prop}
    (hty : o.wellTyped = true) (hstep : o.step act c.nextId s = some (s.setReg c.nextId [w]))
    (h : ∀ v c' s', Quiet c c' s s' → Is act c' s' v w → v.getType = ty → Q v c' s') :
    (Gen.inst o ty).Does act c s Q := by
  refine ⟨.inst c.nextId ty, c.emitOp o, _, ?_, h _ _ _ (.emitOp c s o [w]) ?_ rfl⟩
  · rw [Gen.inst, exec, if_pos hty, hstep]
    rfl
  · exact ⟨Nat.lt_succ_self _, by simp [Value.eval]⟩

/-- A store, which has no result. The address has to be a pointer, and any address may be stored
to. -/
theorem store {v adr : Val} {align : Nat} {w a : Word} {Q : Unit → Context → State → Prop}
    (hv : Is act c s v w) (hadr : Is act c s adr a) (hty : adr.getType = ptrTy)
    (h : Q () (c.emitOp (.store v adr align)) (s.store a v.getType.bytes w)) :
    (Gen.inst_ (.store v adr align)).Does act c s Q := by
  refine ⟨(), _, _, ?_, h⟩
  rw [Gen.inst_, exec, if_pos (by simp [Op.wellTyped, hty, Ty.isPointerTy])]
  simp [Op.step, hv.eval, hadr.eval, exec]

end Gen.Does

/-! ### Coercions and arithmetic -/

/-- A value that the builder takes for an integer of `n` bits: one of that type,
or a pointer where the native size is meant. -/
def IntLike (n : Nat) (v : Val) : Prop := v.getType = .int n ∨ v.getType = ptrTy ∧ n = 64

namespace Gen.Does

variable {act : Activation Sym} {c : Context} {s : State} {Q : Val → Context → State → Prop}

/-- A conversion that is needed only between different types. Where the types are the same, the
value has to be the converted one already. -/
theorem createCast {op : CastOp} {v : Val} {ty : Ty} {w u : Word} (hv : Is act c s v w)
    (hsame : v.getType = ty → u = w)
    (hcast : v.getType ≠ ty → op.wellTyped v.getType ty = true ∧
      op.eval act.host v.getType ty w = some u)
    (h : ∀ v' c' s', Quiet c c' s s' → Is act c' s' v' u → v'.getType = ty → Q v' c' s') :
    (Codegen.createCast op v ty).Does act c s Q := by
  unfold Codegen.createCast
  split
  next hty => exact .pure (h v c s (.refl c s) (hsame hty ▸ hv) hty)
  next hty =>
    obtain ⟨hwt, hev⟩ := hcast hty
    refine inst hwt ?_ h
    simp [Op.step, hv.eval, hev]

/-- `asPtr` makes a native integer a pointer, with the same word. -/
theorem asPtr {v : Val} {w : Word} (hv : Is act c s v w)
    (hty : v.getType = ptrTy ∨ v.getType.isIntegerTy = true)
    (h : ∀ v' c' s', Quiet c c' s s' → Is act c' s' v' w → v'.getType = ptrTy → Q v' c' s') :
    (Codegen.asPtr v).Does act c s Q := by
  unfold Codegen.asPtr
  split
  next hp => exact .pure (h v c s (.refl c s) hv (by simpa [Ty.isPointerTy] using hp))
  next hp =>
    have hint : v.getType.isIntegerTy = true := hty.resolve_left fun he => hp (by
      simp [he, Ty.isPointerTy])
    rw [if_pos hint]
    exact createCast hv (fun _ => rfl)
      (fun _ => ⟨by simp [CastOp.wellTyped, hint, Ty.isPointerTy], rfl⟩) h

/-- `asInt` makes a pointer a native integer. -/
theorem asInt {n : Nat} {v : Val} {w : Word} (hv : Is act c s v w) (hty : IntLike n v)
    (h : ∀ v' c' s', Quiet c c' s s' → Is act c' s' v' w → v'.getType = .int n → Q v' c' s') :
    (Codegen.asInt v).Does act c s Q := by
  unfold Codegen.asInt
  cases hty with
  | inl hty =>
      rw [hty, if_neg (by simp [Ty.isPointerTy])]
      exact .pure (h v c s (.refl c s) hv hty)
  | inr hty =>
      obtain ⟨hty, rfl⟩ := hty
      rw [hty, if_pos (by simp [Ty.isPointerTy])]
      refine createCast hv (fun _ => rfl) (fun _ => ⟨?_, ?_⟩) h
      · simp [CastOp.wellTyped, hty, Ty.isPointerTy, Ty.isIntegerTy]
      · simp [CastOp.eval, Ty.bits]

/-- `asInt` for a bit size keeps the low bits of a pointer. The other bits of the result are not
determined, and no operation of this size looks at them. -/
theorem asIntSz {sz : Int} {v : Val} {w : Word} (hv : Is act c s v w)
    (hty : v.getType = iType sz ∨ v.getType = ptrTy)
    (h : ∀ v' w' c' s', Quiet c c' s s' → Is act c' s' v' w' → v'.getType = iType sz →
      w'.setWidth (iBits sz) = w.setWidth (iBits sz) → Q v' c' s') :
    (Codegen.asIntSz sz v).Does act c s Q := by
  unfold Codegen.asIntSz
  split
  next hp =>
    refine createCast (u := (w.setWidth (iBits sz)).setWidth 64) hv (fun he => ?_)
      (fun _ => ⟨?_, ?_⟩) fun v' c' s' hq hi ht => h v' _ c' s' hq hi ht ?_
    · rw [hp] at he
      cases he
    · simp [CastOp.wellTyped, hp, Ty.isPointerTy, Ty.isIntegerTy, iType]
    · simp [CastOp.eval, Ty.bits, iType]
    · have hn : iBits sz ≤ 64 := by have := iBits_cases sz; omega
      apply BitVec.eq_of_toNat_eq
      simp only [BitVec.toNat_setWidth]
      rw [Nat.mod_mod_of_dvd _ (Nat.pow_dvd_pow 2 hn), Nat.mod_mod]
  next hp => exact .pure (h v w c s (.refl c s) hv (hty.resolve_right hp) rfl)

/-- `createAdd` and its siblings, for operands that are integers of the size or pointers. -/
theorem createBin {op : BinOp} {n : Nat} {a b : Val} {x y r : Word} (ha : Is act c s a x)
    (hta : IntLike n a) (hb : Is act c s b y) (htb : IntLike n b)
    (hop : op.eval n x y = some r)
    (h : ∀ v' c' s', Quiet c c' s s' → Is act c' s' v' r → v'.getType = .int n → Q v' c' s') :
    (Codegen.createBin op a b).Does act c s Q := by
  refine bind (asInt ha hta fun a' c₁ s₁ hq₁ ha' hta' => ?_)
  refine bind (asInt (hb.later hq₁.toLater) htb fun b' c₂ s₂ hq₂ hb' htb' => ?_)
  refine inst ?_ ?_ fun v' c' s' hq hv ht => h v' c' s' (hq₁.trans (hq₂.trans hq)) hv ?_
  · simp [Op.wellTyped, hta', htb', Ty.isIntegerTy]
  · simp [Op.step, (ha'.later hq₂.toLater).eval, hb'.eval, hta', Ty.bits, hop]
  · rw [ht, hta']

/-- `createICmp`: the result is one bit, which is `1` if the comparison holds. -/
theorem createICmp {pred : ICmpPred} {n : Nat} {a b : Val} {x y : Word}
    (ha : Is act c s a x) (hta : IntLike n a) (hb : Is act c s b y) (htb : IntLike n b)
    (h : ∀ v' c' s', Quiet c c' s s' →
      Is act c' s' v' (BitVec.ofNat 64 (pred.eval n x y).toNat) → v'.getType = .int 1 →
      Q v' c' s') : (Codegen.createICmp pred a b).Does act c s Q := by
  refine bind (asInt ha hta fun a' c₁ s₁ hq₁ ha' hta' => ?_)
  refine bind (asInt (hb.later hq₁.toLater) htb fun b' c₂ s₂ hq₂ hb' htb' => ?_)
  refine inst ?_ ?_ fun v' c' s' hq hv ht => h v' c' s' (hq₁.trans (hq₂.trans hq)) hv ht
  · simp [Op.wellTyped, hta', htb', Ty.isIntegerTy]
  · simp [Op.step, (ha'.later hq₂.toLater).eval, hb'.eval, hta', Ty.bits]

/-- The argument of an operation, which has to be there. -/
theorem argAt {args : List Val} {i : Nat} {v : Val} (hv : args[i]? = some v) (h : Q v c s) :
    (Codegen.argAt args i).Does act c s Q := deref hv h

end Gen.Does

/-! ### Addresses and stores -/

/-- No integer of the CFG is wider than a word. -/
theorem iBits_le (sz : Int) : iBits sz ≤ 64 := by
  have := iBits_cases sz
  omega

/-- A constant index counts elements, if it fits 32 bits. The source passes indices as `int32_t`
constants, which LLVM extends with their sign. -/
theorem gepEval_i32 {elem : Ty} {base : Word} {i : Int} (hlo : -2 ^ 31 ≤ i) (hhi : i < 2 ^ 31) :
    gepEval elem 32 base ((BitVec.ofNat 32 (BitVec.ofInt 32 i).toNat).setWidth 64)
      = base + BitVec.ofInt 64 (i * elem.bytes) := by
  have hidx : ((BitVec.ofNat 32 (BitVec.ofInt 32 i).toNat).setWidth 64).setWidth 32
      = BitVec.ofInt 32 i := by
    rw [BitVec.ofNat_toNat, BitVec.setWidth_eq]
    apply BitVec.eq_of_toNat_eq
    simp only [BitVec.toNat_setWidth]
    have := (BitVec.ofInt 32 i).isLt
    omega
  have hsext : (BitVec.ofInt 32 i).signExtend 64 = BitVec.ofInt 64 i := by
    apply BitVec.eq_of_toInt_eq
    rw [BitVec.toInt_signExtend_of_le (by decide), BitVec.toInt_ofInt, BitVec.toInt_ofInt,
      Int.bmod_eq_of_le (by omega) (by omega), Int.bmod_eq_of_le (by omega) (by omega)]
  rw [gepEval, hidx, hsext, ← BitVec.ofInt_natCast, ← BitVec.ofInt_mul]

namespace Gen.Does

variable {act : Activation Sym} {c : Context} {s : State} {Q : Val → Context → State → Prop}

/-- The address of an element with a constant index. -/
theorem gepConst {elem : Ty} {base : Val} {i : Int} {x : Word} (hb : Is act c s base x)
    (hty : base.getType = ptrTy) (hlo : -2 ^ 31 ≤ i) (hhi : i < 2 ^ 31)
    (h : ∀ v' c' s', Quiet c c' s s' → Is act c' s' v' (x + BitVec.ofInt 64 (i * elem.bytes)) →
      v'.getType = ptrTy → Q v' c' s') :
    (Gen.inst (.gep elem base (i32Const i)) ptrTy).Does act c s Q := by
  refine inst ?_ ?_ h
  · have hint : (i32Const i).getType.isIntegerTy = true := rfl
    simp [Op.wellTyped, hty, hint, Ty.isPointerTy]
  · have heval : (i32Const i).eval act s.regs
        = some ((BitVec.ofNat 32 (BitVec.ofInt 32 i).toNat).setWidth 64) := rfl
    have hbits : (i32Const i).getType.bits = 32 := rfl
    simp only [Op.step, hb.eval, heval, hbits, gepEval_i32 hlo hhi, Option.bind_eq_bind,
      Option.bind_some]

/-- A constant index into words. -/
theorem createGEPConst {base : Val} {i : Int} {x : Word} (hb : Is act c s base x)
    (hty : base.getType = ptrTy) (hlo : -2 ^ 31 ≤ i) (hhi : i < 2 ^ 31)
    (h : ∀ v' c' s', Quiet c c' s s' → Is act c' s' v' (x + BitVec.ofInt 64 (i * 8)) →
      v'.getType = ptrTy → Q v' c' s') :
    (Codegen.createGEPConst base i).Does act c s Q := gepConst hb hty hlo hhi h

/-- A constant index into elements of a type. -/
theorem createGEPTyConst {elem : Ty} {base : Val} {i : Int} {x : Word} (hb : Is act c s base x)
    (hty : base.getType = ptrTy) (hlo : -2 ^ 31 ≤ i) (hhi : i < 2 ^ 31)
    (h : ∀ v' c' s', Quiet c c' s s' → Is act c' s' v' (x + BitVec.ofInt 64 (i * elem.bytes)) →
      v'.getType = ptrTy → Q v' c' s') :
    (Codegen.createGEPTyConst elem base i).Does act c s Q := by
  refine bind (asPtr hb (.inl hty) fun base' c₁ s₁ hq hb' hty' => ?_)
  exact gepConst hb' hty' hlo hhi fun v' c' s' hq' hv ht => h v' c' s' (hq.trans hq') hv ht

end Gen.Does

/-! ### Code that stores -/

/-- The memory after stores in order, so a later one wins where they overlap. -/
def writeAll (m : Mem) (ws : List Write) : Mem :=
  ws.foldl (fun m w => m.write w.adr w.size w.val) m

/-- Code that stores `ws`, in this order, and changes no register. The trace is the list of all
stores so far, so it tells more than the memory. -/
structure Stores (c c' : Context) (s s' : State) (ws : List Write) : Prop
    extends Later c c' s s' where
  ctx : c' = { c with body := c'.body, nextId := c'.nextId, memo := c'.memo }
  mem : s'.mem = writeAll s.mem ws
  trace : s'.trace = s.trace ++ ws

/-- Code that only computes stores nothing. -/
theorem Quiet.stores {c c' : Context} {s s' : State} (h : Quiet c c' s s') :
    Stores c c' s s' [] :=
  ⟨h.toLater, h.ctx, h.mem, by rw [h.trace, List.append_nil]⟩

/-- First the stores of the one, then those of the other. -/
theorem Stores.trans {c c₁ c' : Context} {s s₁ s' : State} {ws ws' : List Write}
    (h : Stores c c₁ s s₁ ws) (h' : Stores c₁ c' s₁ s' ws') : Stores c c' s s' (ws ++ ws') where
  toLater := h.toLater.trans h'.toLater
  ctx := by
    have hc := h'.ctx
    rw [h.ctx] at hc
    exact hc
  mem := by rw [h'.mem, h.mem, writeAll, writeAll, writeAll, List.foldl_append]
  trace := by rw [h'.trace, h.trace, List.append_assoc]

/-- One store. -/
theorem Gen.Does.store_ {act : Activation Sym} {c : Context} {s : State} {v adr : Val}
    {align : Nat} {w a : Word} {Q : Unit → Context → State → Prop} (hv : Is act c s v w)
    (hadr : Is act c s adr a) (hty : adr.getType = ptrTy)
    (h : ∀ c' s', Stores c c' s s' [⟨a.toNat, v.getType.bytes, w.toNat⟩] → Q () c' s') :
    (Gen.inst_ (.store v adr align)).Does act c s Q :=
  .store hv hadr hty (h _ _ ⟨⟨Nat.le_succ _, fun _ _ => rfl⟩, rfl, rfl, rfl⟩)

/-- `createStoreML`. -/
theorem Gen.Does.createStoreML {act : Activation Sym} {c : Context} {s : State} {v adr : Val}
    {w a : Word} {Q : Unit → Context → State → Prop} (hv : Is act c s v w)
    (htv : v.getType = ptrTy ∨ v.getType.isIntegerTy = true) (hadr : Is act c s adr a)
    (hty : adr.getType = ptrTy)
    (h : ∀ c' s', Stores c c' s s' [⟨a.toNat, 8, w.toNat⟩] → Q () c' s') :
    (Codegen.createStoreML v adr).Does act c s Q := by
  refine .bind (.asPtr hv htv fun v' c₁ s₁ hq₁ hv' htv' => ?_)
  refine .bind (.asPtr (hadr.later hq₁.toLater) (.inl hty) fun adr' c₂ s₂ hq₂ hadr' hty' => ?_)
  refine .store_ (hv'.later hq₂.toLater) hadr' hty' fun c' s' hs => h c' s' ?_
  rw [htv'] at hs
  exact (hq₁.trans hq₂).stores.trans hs

/-- `createStoreInt`. -/
theorem Gen.Does.createStoreInt {act : Activation Sym} {c : Context} {s : State} {v adr : Val}
    {w a : Word} {Q : Unit → Context → State → Prop} (hv : Is act c s v w)
    (htv : v.getType = intTy) (hadr : Is act c s adr a) (hty : adr.getType = ptrTy)
    (h : ∀ c' s', Stores c c' s s' [⟨a.toNat, 8, w.toNat⟩] → Q () c' s') :
    (Codegen.createStoreInt v adr).Does act c s Q := by
  refine .bind (.asPtr hadr (.inl hty) fun adr' c₁ s₁ hq₁ hadr' hty' => ?_)
  refine .store_ (hv.later hq₁.toLater) hadr' hty' fun c' s' hs => h c' s' ?_
  rw [htv] at hs
  exact hq₁.stores.trans hs

/-! ### The special registers -/

/-- The address of the stack slot of a register. -/
def slot (act : Activation Sym) (t : TargetInfo) (r : CMRegId) : Word :=
  act.host.sp + BitVec.ofInt 64 (t.stkOffset r)

/-- A special register holds a word: in the value it is cached in, which is a
pointer, or in its stack slot. -/
def RegIs (act : Activation Sym) (c : Context) (s : State) (r : CMRegId) (w : Word) : Prop :=
  match c.regState.val r with
  | some v => Is act c s v w ∧ v.getType = ptrTy
  | none => s.load (slot act c.target r) 8 = w

/-- A register holds one word, so what is promised of it can be compared with what it has. -/
theorem RegIs.unique {act : Activation Sym} {c : Context} {s : State}
    {r : CMRegId} {w w' : Word} (h : RegIs act c s r w) (h' : RegIs act c s r w') : w = w' := by
  unfold RegIs at h h'
  cases hval : c.regState.val r with
  | none =>
      rw [hval] at h h'
      exact h.symm.trans h'
  | some v =>
      rw [hval] at h h'
      exact Option.some.inj (h.1.eval.symm.trans h'.1.eval)

/-- The stores that setting a register takes: one to its slot, or none if it is cached. -/
def regWrites (act : Activation Sym) (c : Context) (r : CMRegId) (w : Word) : List Write :=
  match c.regState.val r with
  | some _ => []
  | none => [⟨(slot act c.target r).toNat, 8, w.toNat⟩]

namespace Gen.Does

variable {act : Activation Sym} {c : Context} {s : State}

/-- The address of a stack slot: the stack pointer and a constant offset. -/
theorem stkAddr {off : Int} {Q : Val → Context → State → Prop}
    (h : ∀ v' c' s', Quiet c c' s s' → Is act c' s' v' (act.host.sp + BitVec.ofInt 64 off) →
      v'.getType = ptrTy → Q v' c' s') : (Codegen.stkAddr off).Does act c s Q := by
  refine bind (inst (w := act.host.sp) rfl rfl fun sp c₁ s₁ hq₁ hsp htsp => ?_)
  have hadd : BinOp.eval 64 .add act.host.sp
      ((BitVec.ofNat 64 (BitVec.ofInt 64 off).toNat).setWidth 64)
      = some (act.host.sp + BitVec.ofInt 64 off) := by
    rw [BinOp.eval, BinOp.evalBits, BitVec.ofNat_toNat]
    simp only [BitVec.setWidth_eq, Option.map_some]
  refine bind (createBin hsp (.inl htsp) (.const act c₁ s₁ _ _) (.inl rfl) hadd
    fun a c₂ s₂ hq₂ ha hta => ?_)
  refine createCast ha (fun _ => rfl) (fun _ => ⟨?_, rfl⟩)
    fun v' c' s' hq hv ht => h v' c' s' (hq₁.trans (hq₂.trans hq)) hv ht
  simp [CastOp.wellTyped, hta, Ty.isIntegerTy, Ty.isPointerTy]

/-- The value of a register, with an instruction for the load if it is on the stack. -/
theorem mlReg {r : CMRegId} {w : Word} {Q : Val → Context → State → Prop}
    (hr : RegIs act c s r w)
    (h : ∀ v' c' s', Quiet c c' s s' → Is act c' s' v' w → v'.getType = ptrTy → Q v' c' s') :
    (Codegen.mlReg r).Does act c s Q := by
  refine bind (ask ?_)
  unfold RegIs at hr
  split
  next hval =>
    rw [hval] at hr
    refine bind (ask (bind (stkAddr fun adr c₁ s₁ hq₁ hadr hty => ?_)))
    refine inst (w := w) ?_ ?_ fun v' c' s' hq hv ht => h v' c' s' (hq₁.trans hq) hv ht
    · simp [Op.wellTyped, hty, Ty.isPointerTy]
    · have hload : s₁.load (act.host.sp + BitVec.ofInt 64 (c.target.stkOffset r)) ptrTy.bytes
          = w := by
        rw [State.load, hq₁.mem]
        exact hr
      simp [Op.step, hadr.eval, hload]
  next v hval =>
    rw [hval] at hr
    exact pure (h v c s (.refl c s) hr.1 hr.2)

/-- A new value for a register. It is kept where the old one was, so the next one takes the same
stores. -/
theorem setMLReg {r : CMRegId} {v : Val} {w : Word} {Q : Unit → Context → State → Prop}
    (hv : Is act c s v w) (hty : v.getType = ptrTy)
    (h : ∀ c' s', Later c c' s s' → RegIs act c' s' r w →
      regWrites act c' r = regWrites act c r →
      s'.mem = writeAll s.mem (regWrites act c r w) →
      s'.trace = s.trace ++ regWrites act c r w → Q () c' s') :
    (Codegen.setMLReg r v).Does act c s Q := by
  refine bind (ask ?_)
  split
  next hval =>
    refine bind (ask (bind (stkAddr fun adr c₁ s₁ hq₁ hadr hta => ?_)))
    refine store_ (hv.later hq₁.toLater) hadr hta fun c' s' hs => ?_
    have hstores := hq₁.stores.trans hs
    have hw : regWrites act c r w = [⟨(slot act c.target r).toNat, 8, w.toNat⟩] := by
      rw [regWrites, hval]
    refine h c' s' hstores.toLater ?_ ?_ ?_ ?_
    · have hval' : c'.regState.val r = none := by rw [hstores.ctx]; exact hval
      have ht : c'.target = c.target := by rw [hstores.ctx]
      rw [RegIs, hval']
      show BitVec.ofNat 64 (s'.mem.read (slot act c'.target r).toNat 8) = w
      rw [hstores.mem, ht]
      simp [writeAll, slot, hty, Ty.bytes]
    · funext w'
      rw [hstores.ctx]
      rfl
    · rw [hstores.mem, hw, hty]
      rfl
    · rw [hstores.trace, hw, hty]
      rfl
  next v₀ hval =>
    have hval' : (c.setReg r v).regState.val r = some v := by
      simp [Context.setReg, hval]
    refine ⟨(), c.setReg r v, s, rfl, h _ _ ⟨Nat.le_refl _, fun _ _ => rfl⟩ ?_ ?_ ?_ ?_⟩
    · rw [RegIs, hval']
      exact ⟨⟨hv.below, hv.eval⟩, hty⟩
    · funext w'
      rw [regWrites, regWrites, hval, hval']
    · rw [regWrites, hval]
      rfl
    · rw [regWrites, hval, List.append_nil]

end Gen.Does

end SmlnjCfg.Codegen
