import SmlnjCfg.Codegen.Cluster

/-!
# `SmlnjCfg.Codegen.Run`: rules for code generation

How the computations of `Gen` and `CodegenM` compose, and what every
straight-line computation leaves alone:

* `Gen.run_bind`, `CodegenM.bind_ok`: sequencing.
* `InitRules.init`: what is kept by making one block is kept by `stm::init`.
* `Gen.ext_of_run`: a computation of `Gen` appends instructions with fresh
  numbers to the current block, changes register values, and nothing else.
-/

set_option autoImplicit false

namespace SmlnjCfg.Codegen

variable {α β : Type}

/-! ### Sequencing -/

namespace Gen

/-- A result that is there already is handed on. -/
@[simp] theorem bind_ret (a : α) (f : α → Gen β) : (Gen.ret a).bind f = f a := rfl

/-- Returning the result at the end adds nothing. -/
private theorem bind_ret_right (x : Gen α) : x.bind .ret = x := by
  induction x with
  | ret a => rfl
  | fail msg => rfl
  | read k ih => exact congrArg Gen.read (funext ih)
  | emit o k ih => exact congrArg (Gen.emit o) (funext ih)
  | setReg r v k ih => exact congrArg (Gen.setReg r v) ih
  | use key k ih => exact congrArg (Gen.use key) ih

/-- Code generation in three parts does not depend on how the parts are grouped. -/
private theorem bind_assoc' {γ : Type} (x : Gen α) (f : α → Gen β) (g : β → Gen γ) :
    (x.bind f).bind g = x.bind fun a => (f a).bind g := by
  induction x with
  | ret a => rfl
  | fail msg => rfl
  | read k ih => exact congrArg Gen.read (funext ih)
  | emit o k ih => exact congrArg (Gen.emit o) (funext ih)
  | setReg r v k ih => exact congrArg (Gen.setReg r v) ih
  | use key k ih => exact congrArg (Gen.use key) ih

instance : LawfulMonad Gen :=
  LawfulMonad.mk' Gen bind_ret_right (fun _ _ => rfl) bind_assoc'

/-- A result changes nothing in the context. -/
theorem run_ret (a : α) (c : Context) : (pure a : Gen α).run c = .ok (a, c) := rfl

/-- The computation after a successful one starts where that one ended, and after a failure it is
not run. All rules for the methods of the generator come down to this one. -/
theorem run_bind (x : Gen α) (f : α → Gen β) (c : Context) :
    (x >>= f).run c = (x.run c).bind fun p => (f p.1).run p.2 := by
  show (x.bind f).run c = _
  induction x generalizing c with
  | ret a => rfl
  | fail msg => rfl
  | read k ih => exact ih c c
  | emit o k ih => exact ih c.nextId (c.emitOp o)
  | setReg r v k ih => exact ih (c.setReg r v)
  | use key k ih => exact ih (c.use key)

/-- A sequence that succeeds, taken apart: the first part has a result and a context, and the
second succeeds from there. This is the form in which the methods are read backwards. -/
theorem run_bind_ok {x : Gen α} {f : α → Gen β} {c c' : Context} {b : β} :
    (x >>= f).run c = .ok (b, c') ↔
      ∃ a c₁, x.run c = .ok (a, c₁) ∧ (f a).run c₁ = .ok (b, c') := by
  rw [run_bind]
  cases h : x.run c with
  | error e => simp [Except.bind]
  | ok p =>
      obtain ⟨a, c₁⟩ := p
      exact ⟨fun h' => ⟨a, c₁, rfl, h'⟩, by rintro ⟨_, _, ⟨⟩, h'⟩; exact h'⟩

/-- A look at the context gives what is there. -/
theorem run_ask {f : Context → α} {c : Context} : (ask f).run c = .ok (f c, c) := rfl

/-- A failure gives no result. -/
theorem run_fail_ok {msg : String} {c : Context} {p : α × Context} :
    ¬ (fail msg : Gen α).run c = .ok p := nofun

/-- An assertion that does not fail was true, and it changed nothing. -/
theorem run_assert_ok {p : Bool} {msg : String} {c c' : Context} {u : Unit} :
    (assert p msg).run c = .ok (u, c') ↔ p = true ∧ c' = c := by
  cases p with
  | false => simp [assert, run]
  | true => simp [assert, run, eq_comm]

/-- A pointer that could be followed was not null. The source does not test it: there a null
pointer is undefined behaviour, and here code generation fails. -/
theorem run_deref_ok {o : Option α} {msg : String} {c c' : Context} {a : α} :
    (deref o msg).run c = .ok (a, c') ↔ o = some a ∧ c' = c := by
  cases o with
  | none => simp [deref, run]
  | some a' => simp [deref, run, eq_comm]

/-- An instruction with a result takes the next number. -/
theorem run_inst (o : IR.Op Sym) (ty : IR.Ty) (c : Context) :
    (inst o ty).run c = .ok (.inst c.nextId ty, c.emitOp o) := rfl

/-- An instruction without one takes a number too, which nothing refers to. -/
theorem run_inst_ (o : IR.Op Sym) (c : Context) : (inst_ o).run c = .ok ((), c.emitOp o) := rfl

/-- An argument of the current function, with the type that the function has there. -/
theorem run_getArg {i : Nat} {c c' : Context} {v : Val} :
    (getArg i).run c = .ok (v, c') ↔
      c' = c ∧ ∃ fn ty, c.curFn = some fn ∧ fn.fnTy[i]? = some ty ∧ v = .arg i ty := by
  simp only [getArg, run_bind_ok, run_ask, run_deref_ok, run_ret, Except.ok.injEq, Prod.mk.injEq]
  constructor
  · rintro ⟨_, _, ⟨rfl, rfl⟩, fn, _, ⟨hfn, rfl⟩, ty, _, ⟨hty, rfl⟩, rfl, rfl⟩
    exact ⟨rfl, fn, ty, hfn, hty, rfl⟩
  · rintro ⟨rfl, fn, ty, hfn, hty, rfl⟩
    exact ⟨_, _, ⟨rfl, rfl⟩, fn, _, ⟨hfn, rfl⟩, ty, _, ⟨hty, rfl⟩, rfl, rfl⟩

/-- A phi node of a fragment, with the type it was made for. -/
theorem run_phiAt {phis : List (Nat × IR.Ty)} {i : Nat} {c c' : Context} {v : Val} :
    (phiAt phis i).run c = .ok (v, c') ↔
      c' = c ∧ ∃ phi, phis[i]? = some phi ∧ v = .inst phi.1 phi.2 := by
  simp only [phiAt, run_bind_ok, run_deref_ok, run_ret, Except.ok.injEq, Prod.mk.injEq]
  constructor
  · rintro ⟨phi, _, ⟨hphi, rfl⟩, rfl, rfl⟩
    exact ⟨rfl, phi, hphi, rfl⟩
  · rintro ⟨rfl, phi, hphi, rfl⟩
    exact ⟨phi, _, ⟨hphi, rfl⟩, rfl, rfl⟩

/-- A cast to the type that the value has already is the value. -/
theorem run_createCast (op : IR.CastOp) (v : Val) (ty : IR.Ty) (c : Context) :
    (createCast op v ty).run c = .ok (if v.getType = ty then (v, c)
      else (.inst c.nextId ty, c.emitOp (.cast op v ty))) := by
  unfold createCast
  split <;> rfl

end Gen

/-- `bind` in `CodegenM`, for a sequence that succeeds. The computations that go to other blocks
are read backwards with this rule, as those of straight-line code are with `Gen.run_bind_ok`. -/
theorem CodegenM.bind_ok {x : CodegenM α} {f : α → CodegenM β} {c c' : Context} {b : β} :
    (x >>= f) c = .ok (b, c') ↔ ∃ a c₁, x c = .ok (a, c₁) ∧ f a c₁ = .ok (b, c') := by
  show (x c).bind (fun p => f p.1 p.2) = _ ↔ _
  cases h : x c with
  | error e => simp [Except.bind]
  | ok p =>
      obtain ⟨a, c₁⟩ := p
      exact ⟨fun h' => ⟨a, c₁, rfl, h'⟩, by rintro ⟨_, _, ⟨⟩, h'⟩; exact h'⟩

/-- A result. -/
theorem CodegenM.pure_ok {a b : α} {c c' : Context} :
    (pure a : CodegenM α) c = .ok (b, c') ↔ b = a ∧ c' = c := by
  show Except.ok (a, c) = _ ↔ _
  simp [eq_comm]

/-- Straight-line code as a part of the other. -/
theorem CodegenM.lift_ok {g : Gen α} {c : Context} : (liftM g : CodegenM α) c = g.run c := rfl

/-- The context as it is. -/
theorem CodegenM.get_ok {c : Context} : (get : CodegenM Context) c = .ok (c, c) := rfl

/-- A change of the context always succeeds. -/
theorem CodegenM.modify_ok {f : Context → Context} {c : Context} :
    (modify f : CodegenM Unit) c = .ok ((), f c) := rfl

/-- `createPHIs` makes phi nodes with consecutive numbers in the current block. They have no
incoming values yet: those are added by the jumps to the block. -/
theorem createPHIs_ok (tys : List IR.Ty) (c : Context) :
    createPHIs tys c = .ok (List.range' c.nextId tys.length, { c with
      nextId := c.nextId + tys.length
      body := { c.body with phis := c.body.phis
        ++ ((List.range' c.nextId tys.length).zip tys).map fun p => (c.curBB, p.1, p.2) } }) := by
  induction tys generalizing c with
  | nil =>
      have hnil : createPHIs [] c = .ok ([], c) := rfl
      simp [hnil]
  | cons ty tys ih =>
      rw [createPHIs, CodegenM.bind_ok]
      refine ⟨c.nextId, _, rfl, CodegenM.bind_ok.mpr ⟨_, _, ih _, ?_⟩⟩
      show Except.ok (_, _) = _
      simp [List.range'_succ, Nat.add_comm, Nat.add_left_comm]

/-! ### The initialization of statements

`stm::init` makes the blocks of a statement, from the one that it starts, if it does, to those of
its last arm. Whatever is kept by making one block is kept by all of it. -/

/-- A property that making a block has, and that doing nothing and a sequence inherit. -/
structure InitRules (P : CodegenM Unit → Prop) : Prop where
  pure : P (pure ())
  bind : ∀ {x y}, P x → P y → P (x >>= fun _ => y)
  initBB : ∀ bb blkEntry, P (initBB bb blkEntry)

open Cfg

mutual

/-- Such a property holds of the initialization of every statement. The recursion is on the
statement and follows that of `stm::init`. -/
theorem InitRules.init {P : CodegenM Unit → Prop} (h : InitRules P) (frag : Nat) : (s : Stm .cpp) → (path : List Nat) → (blkEntry : Bool) →
    P (s.init frag path blkEntry)
  | .LET _ _ k, path, _ => h.bind (h.initBB _ _) (h.init frag k path false)
  | .ALLOC _ _ _ k, path, _ => h.bind (h.initBB _ _) (h.init frag k path false)
  | .APPLY .., _, _ => h.initBB _ _
  | .THROW .., _, _ => h.initBB _ _
  | .GOTO .., _, _ => h.initBB _ _
  | .SWITCH _ cases, path, _ => h.bind (h.initBB _ _) (h.initArms frag cases path 0)
  | .BRANCH _ _ _ trueK falseK, path, _ =>
      h.bind (h.initBB _ _)
        (h.bind (h.init frag trueK (0 :: path) true) (h.init frag falseK (1 :: path) true))
  | .ARITH _ _ _ k, path, _ => h.bind (h.initBB _ _) (h.init frag k path false)
  | .SETTER _ _ k, path, _ => h.bind (h.initBB _ _) (h.init frag k path false)
  | .CALLGC _ _ k, path, _ => h.bind (h.initBB _ _) (h.init frag k path false)
  | .RCC _ _ _ _ _ _ k, path, _ => h.bind (h.initBB _ _) (h.init frag k path false)

/-- It holds of the initialization of arms, each of which starts a block of its own. -/
theorem InitRules.initArms {P : CodegenM Unit → Prop} (h : InitRules P) (frag : Nat) :
    (ks : List (Stm .cpp)) → (path : List Nat) → (i : Nat) → P (Stm.initArms frag ks path i)
  | [], _, _ => h.pure
  | k :: ks, path, i =>
      h.bind (h.init frag k (i :: path) true) (h.initArms frag ks path (i + 1))

end

/-! ### What straight-line code generation does -/

/-- `c'` comes from `c` by appending the numbered instructions `is` to the current block and
changing the values of registers that have one. The number of an instruction is fresh, so an
instruction that was there before does not refer to it. A register without a value has none
afterwards: it lives on the stack. -/
structure Ext (c c' : Context) (is : List (Nat × IR.Op Sym)) : Prop where
  frame : c' = { c with
    body := { c.body with insts := c.body.insts ++ is.map fun p => (c.curBB, .op p.1 p.2) }
    nextId := c'.nextId
    memo := c'.memo
    regState := { c.regState with val := c'.regState.val } }
  nextId_le : c.nextId ≤ c'.nextId
  ids : ∀ p ∈ is, c.nextId ≤ p.1 ∧ p.1 < c'.nextId
  isSome_val : ∀ r, (c'.regState.val r).isSome = (c.regState.val r).isSome

namespace Ext

/-- No instruction. -/
theorem refl (c : Context) : Ext c c [] where
  frame := by simp
  nextId_le := Nat.le_refl _
  ids := by simp
  isSome_val _ := rfl

/-- The instructions of both parts, in their order. -/
theorem trans {c c₁ c₂ : Context} {is js : List (Nat × IR.Op Sym)} (h : Ext c c₁ is)
    (h' : Ext c₁ c₂ js) : Ext c c₂ (is ++ js) where
  frame := by
    have h₂ := h'.frame
    rw [h.frame] at h₂
    simpa using h₂
  nextId_le := Nat.le_trans h.nextId_le h'.nextId_le
  ids p hp := by
    have h₁ := h.nextId_le
    have h₂ := h'.nextId_le
    rcases List.mem_append.mp hp with hp | hp
    · have := h.ids p hp
      omega
    · have := h'.ids p hp
      omega
  isSome_val r := (h'.isSome_val r).trans (h.isSome_val r)

/-- One instruction. -/
theorem emitOp (c : Context) (o : IR.Op Sym) : Ext c (c.emitOp o) [(c.nextId, o)] where
  frame := by simp [Context.emitOp, Context.append]
  nextId_le := Nat.le_succ _
  ids p hp := by
    rw [List.mem_singleton] at hp
    subst hp
    exact ⟨Nat.le_refl _, Nat.lt_succ_self _⟩
  isSome_val _ := rfl

/-- A register that has a value gets a new one, and no instruction is needed. -/
theorem setReg (c : Context) (r : CMRegId) (v : Val) : Ext c (c.setReg r v) [] where
  frame := by simp [Context.setReg, CMRegState.set]
  nextId_le := Nat.le_refl _
  ids := by simp
  isSome_val r' := by
    by_cases h : r' = r
    · subst h
      simp [Context.setReg]
    · simp [Context.setReg, CMRegState.set_val_of_ne _ _ h]

/-- A first look for an intrinsic or an alias declares it in the module, outside of the
function. -/
theorem use (c : Context) (key : MemoKey) : Ext c (c.use key) [] where
  frame := by simp [Context.use]
  nextId_le := Nat.le_refl _
  ids := by simp
  isSome_val _ := rfl

end Ext

/-- Straight-line code generation appends to the current block: by induction on the code, with one
of the rules above for each constructor. -/
theorem Gen.ext_of_run {x : Gen α} {c c' : Context} {a : α} (h : x.run c = .ok (a, c')) :
    ∃ is, Ext c c' is := by
  induction x generalizing c with
  | ret b =>
      obtain ⟨-, rfl⟩ : b = a ∧ c = c' := by simpa [run] using h
      exact ⟨[], .refl c⟩
  | fail msg => simp [run] at h
  | read k ih => exact ih c h
  | emit o k ih =>
      obtain ⟨is, hext⟩ := ih _ h
      exact ⟨_, (Ext.emitOp c o).trans hext⟩
  | setReg r v k ih =>
      obtain ⟨is, hext⟩ := ih h
      exact ⟨_, (Ext.setReg c r v).trans hext⟩
  | use key k ih =>
      obtain ⟨is, hext⟩ := ih h
      exact ⟨_, (Ext.use c key).trans hext⟩

end SmlnjCfg.Codegen
