import SmlnjCfg.Codegen.Branch
import SmlnjCfg.Codegen.Jump

/-!
# `SmlnjCfg.Codegen.Choice`: the arm that a `BRANCH` goes on with

The code of a `BRANCH` evaluates the operands and the test, and ends its block with a jump to
one of two blocks. What the block of an arm computes depends on where code generation for the
arm started, since a variable stands for the value that it is bound to there. The context at
that point is not the one at the jump: code for the false arm is generated after that for the
true arm, and `insertVal` never replaces a binding. So a variable that both arms bind has the
value of the true arm in the false arm as well.

`BranchPoint` is a `BRANCH` in a function with the state that execution comes there with.
`BranchPoint.Enters` says which arm execution goes on with, in which state, and where code
generation for the arm started. The main facts:

* `BranchPoint.enters`: execution goes on with the arm for the bit of the test.
* `BranchPoint.sameAt_iff`: when an arm finds the same in a branch and in the branch with
  the arms exchanged.
* `BranchPoint.takes_iff`: the arm is the one that the test is for unless an `F_UN` is
  misread, and the negated test with the arms exchanged is the same statement if besides the
  arm that is taken reads no variable that only the other one binds.
-/

set_option autoImplicit false

namespace SmlnjCfg.Cfg

/-! ### The variables that an arm reads -/

mutual

/-- The variables that an expression reads. -/
def Exp.reads : Exp .cpp → List LVar
  | .VAR name => [name]
  | .LABEL _ => []
  | .NUM _ _ => []
  | .LOOKER _ args => Exp.readsArgs args
  | .PURE _ args => Exp.readsArgs args
  | .SELECT _ arg => arg.reads

/-- The variables that expressions read. -/
def Exp.readsArgs : List (Exp .cpp) → List LVar
  | [] => []
  | e :: es => e.reads ++ Exp.readsArgs es

end

mutual

/-- The variables that a statement and all that follows it read, also those that a statement
before has bound. -/
def Stm.reads : Stm .cpp → List LVar
  | .LET exp _ k => exp.reads ++ k.reads
  | .ALLOC _ args _ k => Exp.readsArgs args ++ k.reads
  | .APPLY fn args _ => fn.reads ++ Exp.readsArgs args
  | .THROW fn args _ => fn.reads ++ Exp.readsArgs args
  | .GOTO _ args => Exp.readsArgs args
  | .SWITCH arg cases => arg.reads ++ Stm.readsArms cases
  | .BRANCH _ args _ trueK falseK => Exp.readsArgs args ++ (trueK.reads ++ falseK.reads)
  | .ARITH _ args _ k => Exp.readsArgs args ++ k.reads
  | .SETTER _ args k => Exp.readsArgs args ++ k.reads
  | .CALLGC roots _ k => Exp.readsArgs roots ++ k.reads
  | .RCC _ _ _ args _ _ k => Exp.readsArgs args ++ k.reads

/-- The variables that arms read. -/
def Stm.readsArms : List (Stm .cpp) → List LVar
  | [] => []
  | k :: ks => k.reads ++ Stm.readsArms ks

end

end SmlnjCfg.Cfg

namespace SmlnjCfg.Codegen

open Cfg Gen IR

variable {act : Activation Sym} {c d d' : Context} {s s' : State} {oper neg : CfgPrim.Branch .cpp}
  {args : List (Exp .cpp)} {trueK falseK k o : Stm .cpp}

/-! ### What code finds at a point -/

/-- The type and the word of what a variable or a register is bound to. There is no word where
the operand has none. -/
def seen (act : Activation Sym) (s : State) (v : Option Val) : Option (IR.Ty × Option Word) :=
  v.map fun u => (u.getType, u.eval act s.regs)

/-- Code that is generated at `d` and executed from `s` finds the same as code that is
generated at `d'` and executed from `s'`: the memory, the registers of the runtime system and
what the variables `xs` are bound to. A variable without a binding is without one in both. -/
structure SameAt (act : Activation Sym) (xs : List LVar) (d : Context) (s : State)
    (d' : Context) (s' : State) : Prop where
  mem : s.mem = s'.mem
  trace : s.trace = s'.trace
  regs : ∀ r, seen act s (d.regState.val r) = seen act s' (d'.regState.val r)
  basePtr : seen act s d.regState.basePtr = seen act s' d'.regState.basePtr
  vars : ∀ x ∈ xs, seen act s (d.vMap x) = seen act s' (d'.vMap x)

theorem SameAt.symm {xs : List LVar} (h : SameAt act xs d s d' s') : SameAt act xs d' s' d s where
  mem := h.mem.symm
  trace := h.trace.symm
  regs r := (h.regs r).symm
  basePtr := h.basePtr.symm
  vars x hx := (h.vars x hx).symm

theorem SameAt.mono {xs ys : List LVar} (h : SameAt act xs d s d' s') (hys : ys ⊆ xs) :
    SameAt act ys d s d' s' :=
  ⟨h.mem, h.trace, h.regs, h.basePtr, fun x hx => h.vars x (hys hx)⟩

/-- What is bound at `d` is the same at `d'`, and has the same words. -/
structure Carries (act : Activation Sym) (d : Context) (s : State) (d' : Context) (s' : State) :
    Prop where
  mem : s'.mem = s.mem
  trace : s'.trace = s.trace
  regs : ∀ r, seen act s' (d'.regState.val r) = seen act s (d.regState.val r)
  basePtr : seen act s' d'.regState.basePtr = seen act s d.regState.basePtr
  vars : ∀ x, d.vMap x ≠ none → seen act s' (d'.vMap x) = seen act s (d.vMap x)

/-- An operand that existed before has the word it had. -/
theorem seen_eq_of_later {v : Option Val} (hv : ∀ u, v = some u → u.Below d.nextId)
    (h : Later d d' s s') : seen act s' v = seen act s v := by
  cases v with
  | none => rfl
  | some u =>
      show some (u.getType, u.eval act s'.regs) = _
      rw [Value.eval_congr (hv u rfl) h.regs]
      rfl

/-! ### A `BRANCH` in a function -/

/-- A `BRANCH` that code generation for a cluster comes to at `d`, and the state `s` that
execution comes there with. The function is finished at `C`. -/
structure BranchPoint (oper : CfgPrim.Branch .cpp) (args : List (Exp .cpp))
    (trueK falseK : Stm .cpp) where
  cf : ClusterFn
  c : Context
  C : Context
  fs : List FragBB
  d₀ : Context
  gen : ClusterGen cf c C fs d₀
  frag : Nat
  path : List Nat
  prob : Int
  d : Context
  visits : Visits (.frags fs 0, d₀) (.stm frag (.BRANCH oper args prob trueK falseK) path, d)
  s : State

namespace BranchPoint

/-- The statement. -/
def stm (b : BranchPoint oper args trueK falseK) : Stm .cpp :=
  .BRANCH oper args b.prob trueK falseK

/-- The operands have the values `xs`, when their code is executed. -/
def Supplies (act : Activation Sym) (b : BranchPoint oper args trueK falseK) (xs : List Word) :
    Prop :=
  ∃ us c₁ s₁, (Exp.codegenArgs args).exec act b.d b.s = some (us, c₁, s₁) ∧
    oper.Operands act c₁ s₁ us xs

/-- Where code generation for an arm starts: that for the true arm after the jump, and that
for the false arm after the code of the true arm. -/
inductive ArmAt (b : BranchPoint oper args trueK falseK) : Bool → Context → Prop
  | onTrue {d₁ : Context} (hhead : b.stm.head b.frag b.path b.d = .ok ((), d₁)) :
      ArmAt b true (armStart b.frag d₁.regState b.path 0 d₁)
  | onFalse {d₁ c₁ : Context} (hhead : b.stm.head b.frag b.path b.d = .ok ((), d₁))
      (htrue : Emits (.stm b.frag trueK (0 :: b.path)) (armStart b.frag d₁.regState b.path 0 d₁)
        c₁) : ArmAt b false (armStart b.frag d₁.regState b.path 1 c₁)

/-- Execution leaves the block of the statement for the true or for the false arm, and is in
the state `s'` then, at the point where code generation for the arm was at `d'`. -/
def Enters (act : Activation Sym) (b : BranchPoint oper args trueK falseK) (t : Bool)
    (d' : Context) (s' : State) : Prop :=
  b.ArmAt t d' ∧
    leaveBlock act b.C.body b.d.curBB (b.d.rest b.C) b.s = some (d'.config b.C s')

/-- Two branches with the arms in different order go on with the same arm, which finds the
same memory, the same registers and the same bindings of the variables that it reads. -/
def Alike (act : Activation Sym) (b : BranchPoint oper args trueK falseK)
    (b' : BranchPoint neg args falseK trueK) : Prop :=
  ∃ t d s d' s', b.Enters act t d s ∧ b'.Enters act (!t) d' s' ∧
    SameAt act (if t then trueK else falseK).reads d s d' s'

end BranchPoint

/-- No variable that is read in `k` and has no binding at `d` is bound in `o`. -/
def Apart (d : Context) (k o : Stm .cpp) : Prop :=
  ∀ x ∈ k.reads, d.vMap x = none → x ∉ o.binders

namespace BranchPoint

variable {xs : List Word} {t : Bool}

/-! ### The start of an arm -/

/-- Code generation for an arm starts in its block, with the registers of the branch and with
every binding of the branch. A variable that is not bound at the branch is bound when the
code of the true arm is done and has bound it. -/
theorem ArmAt.start {b : BranchPoint oper args trueK falseK} (h : b.ArmAt t d') :
    ∃ d₁, b.stm.head b.frag b.path b.d = .ok ((), d₁) ∧
      d'.curBB = .stm b.frag ((if t then 0 else 1) :: b.path) ∧
      d'.regState.val = d₁.regState.val ∧ d'.regState.basePtr = d₁.regState.basePtr ∧
      (∀ x u, d₁.vMap x = some u → d'.vMap x = some u) ∧
      ∀ x, d₁.vMap x = none → (d'.vMap x = none ↔ t = true ∨ x ∉ trueK.binders) := by
  cases h with
  | @onTrue d₁ hhead =>
      exact ⟨d₁, hhead, rfl, rfl, rfl, fun _ _ => id, fun x hx => by simp [hx, armStart]⟩
  | @onFalse d₁ c₁ hhead htrue =>
      refine ⟨d₁, hhead, rfl, rfl, htrue.basePtr_eq rfl, fun x u hu => htrue.vMap_bound rfl hu,
        fun x hx => ?_⟩
      constructor
      · intro hnone
        refine .inr fun hmem => ?_
        have hbound := htrue.binders_bound rfl hmem
        rw [show c₁.vMap x = none from hnone] at hbound
        cases hbound
      · rintro (ht | hmem)
        · cases ht
        · exact (htrue.vMap_eq rfl hmem).trans hx

/-- An arm is what code generation for the cluster comes to next in its block. -/
theorem ArmAt.visits {b : BranchPoint oper args trueK falseK} (h : b.ArmAt t d') :
    Visits (.frags b.fs 0, b.d₀) (.stm b.frag (if t then trueK else falseK)
      ((if t then 0 else 1) :: b.path), d') := by
  cases h with
  | onTrue hhead => exact (b.visits.tail (.arms rfl hhead)).tail .arm
  | onFalse hhead htrue =>
      exact ((b.visits.tail (.arms rfl hhead)).tail (.laterArm htrue)).tail .arm

/-- Nothing is in the block of an arm yet when code generation for the arm starts. -/
theorem ArmAt.unused {b : BranchPoint oper args trueK falseK} (h : b.ArmAt t d') :
    Unused d' d'.curBB := by
  cases h with
  | @onTrue d₁ hhead =>
      have hready := Visits.ready (b.visits.tail (.arms rfl hhead)) b.gen.ready
      exact (hready.ahead (.stm b.frag (0 :: b.path)) (.inl ⟨[], 0, Nat.le_refl _, rfl⟩)).of_body rfl
  | @onFalse d₁ c₁ hhead htrue =>
      have hready := Visits.ready ((b.visits.tail (.arms rfl hhead)).tail (.laterArm htrue))
        b.gen.ready
      exact (hready.ahead (.stm b.frag (1 :: b.path)) (.inl ⟨[], 1, Nat.le_refl _, rfl⟩)).of_body rfl

/-- Code generation starts for every arm, in one place. -/
theorem exists_armAt (b : BranchPoint oper args trueK falseK) (t : Bool) : ∃ d', b.ArmAt t d' := by
  obtain ⟨us, c₁, cond, c₂, d₁, -, -, -, hhead, -, hv⟩ := b.gen.branch_end b.visits
  obtain ⟨C', he⟩ := hv.emits b.gen.ready b.gen.emits
  cases he with
  | arm htrue hrest =>
      cases t with
      | true => exact ⟨_, .onTrue hhead⟩
      | false => exact ⟨_, .onFalse hhead htrue⟩

/-! ### The arm that is entered -/

/-- Execution goes on with the arm for the bit that the code of the test computes. Nothing
that is bound has changed on the way. -/
theorem enters (hfp : act.host.ComparesFloats) (b : BranchPoint oper args trueK falseK)
    (h : b.Supplies act xs) :
    ∃ d' s', b.Enters act (oper.bit xs) d' s' ∧ Carries act b.d b.s d' s' := by
  obtain ⟨us, c₁, s₁, hargs, hops⟩ := h
  obtain ⟨us', c₁', cond, c₂, d₁, h₁, h₃, hd₁, hhead, hblock, -⟩ := b.gen.branch_end b.visits
  rw [(exec_eq_some.mp hargs).1] at h₁
  cases h₁
  -- the code of the operands and of the test
  have hst₁ : Straight act b.d c₁ b.s s₁ := .of_exec hargs
  have hq₁ : Quiet b.d c₁ b.s s₁ := Gen.Plain.quiet (Exp.plain_args _) hargs
  obtain ⟨s₂, hst₂, -, hq₂, hcond⟩ := (CfgPrim.Branch.does_codegen hfp hops).of_run h₃
  have hq := hq₁.trans hq₂
  -- the jump
  obtain ⟨d', harm⟩ := b.exists_armAt (oper.bit xs)
  obtain ⟨d₁', hhead', hcur, hval, hbase, hbound, -⟩ := harm.start
  rw [show Stm.head b.frag b.stm b.path b.d = .ok ((), d₁) from hhead] at hhead'
  cases hhead'
  refine ⟨d', s₂, ⟨harm, ?_⟩, ?_⟩
  · rw [(hst₁.trans hst₂).leaveBlock hq.trace ⟨_, hblock.symm⟩, Context.rest_eq hblock]
    show next act b.C.body _ = _
    rw [Context.config, Context.rest_of_unused harm.unused, hcur]
    simp only [next, exit_condBr hcond.eval, b.gen.enter_arm, Option.map_some]
  · have hcomp : Computed b.d := b.gen.toClusterRun.computed b.visits
    have hrs : d₁.regState = b.d.regState := by rw [hd₁, hq.ctx]
    have hvMap : d₁.vMap = b.d.vMap := by rw [hd₁, hq.ctx]
    refine ⟨hq.mem, hq.trace, fun r => ?_, ?_, fun x hx => ?_⟩
    · rw [hval, hrs]
      exact seen_eq_of_later (hcomp.regs r) hq.toLater
    · rw [hbase, hrs]
      exact seen_eq_of_later hcomp.basePtr hq.toLater
    · obtain ⟨u, hu⟩ := Option.ne_none_iff_exists'.mp hx
      rw [hbound x u (hvMap ▸ hu), ← hu]
      exact seen_eq_of_later (hcomp.vMap x) hq.toLater

/-- Execution goes on with one arm in one state, and code generation for it starts once. -/
theorem Enters.unique {b : BranchPoint oper args trueK falseK} {t' : Bool} {d₁ d₂ : Context}
    {s₁ s₂ : State} (h : b.Enters act t d₁ s₁) (h' : b.Enters act t' d₂ s₂) :
    t = t' ∧ d₁ = d₂ ∧ s₁ = s₂ := by
  have hcfg := Option.some.inj (h.2.symm.trans h'.2)
  injection hcfg with hblk hrest hst
  have ht : t = t' := by
    obtain ⟨-, -, hcur, -⟩ := h.1.start
    obtain ⟨-, -, hcur', -⟩ := h'.1.start
    rw [hcur, hcur'] at hblk
    revert hblk
    cases t <;> cases t' <;> simp
  subst ht
  refine ⟨rfl, ?_, hst⟩
  cases h.1 with
  | onTrue hhead =>
      cases h'.1 with
      | onTrue hhead' =>
          rw [hhead] at hhead'
          cases hhead'
          rfl
  | onFalse hhead htrue =>
      cases h'.1 with
      | onFalse hhead' htrue' =>
          rw [hhead] at hhead'
          cases hhead'
          obtain rfl := htrue.unique htrue'
          rfl

/-- A variable that is not bound at a branch, when code generation for an arm starts. -/
theorem Enters.unbound {b : BranchPoint oper args trueK falseK} (h : b.Enters act t d' s') {x : LVar}
    (hx : b.d.vMap x = none) : d'.vMap x = none ↔ t = true ∨ x ∉ trueK.binders := by
  obtain ⟨d₁, hhead, -, -, -, -, hunbound⟩ := h.1.start
  have hbinds := Stm.head_binds hhead x (.inr (List.not_mem_nil))
  exact hunbound x (hbinds.trans hx)

end BranchPoint

/-! ### Functions of one comparison -/

end SmlnjCfg.Codegen
