import Mathlib.Logic.Relation
import SmlnjCfg.Codegen.Overflow
import SmlnjCfg.Codegen.Visit

/-!
# `SmlnjCfg.Codegen.Step`: what code generation can do to the context

The head of a statement and the start of a fragment change the context in a few ways only.
They add an instruction, look into a cache, give a register or a variable a value, end the
block, pass a value to a phi node, or make the dead block of a `SWITCH`. `Step` has one rule for
each of these. What a piece of code generation keeps is then a question about single steps, and
the modules after this one answer it with one case for each rule.

Heads and starts have the same rules. They differ in what may get a value and which one, and
this is what `Rights` says. `Stm.rights` are the rights of a head, `FragBB.rights` those of the
start of a fragment. The one thing that is no step is the test for overflow, since the code
after it goes to another block. An `ARITH` takes it at most once, before it binds its result.

* `Step`, `Steps`: single steps, and any number of them.
* `Steps.preorder`: a relation that holds for single steps holds for all of them.
* `Gen.steps_of_run`, `Gen.Plain.steps`: straight-line code takes steps.
* `fragStart_steps`: the start of a fragment takes steps.
-/

set_option autoImplicit false

namespace SmlnjCfg

/-- The variables that a statement binds for what follows it. A statement that ends its path binds
nothing, and the variables bound in the arms are those of the statements there. -/
def Cfg.Stm.binds : Cfg.Stm .cpp → List LVar
  | .LET _ param _ => [param.name]
  | .ALLOC _ _ lhs _ => [lhs]
  | .ARITH _ _ param _ => [param.name]
  | .CALLGC _ newRoots _ => newRoots
  | _ => []

/-- The register that a setter gives its operand to. The other setters store to memory. -/
def CfgPrim.Setter.reg : CfgPrim.Setter .cpp → Option CMRegId
  | .SET_HDLR => some .EXN_HNDLR
  | .SET_VAR => some .VAR_PTR
  | _ => none

end SmlnjCfg

namespace SmlnjCfg.Codegen

open Cfg Gen

variable {α β : Type}

/-! ### Rights -/

/-- The values that a piece of code generation can come by when `n` instructions have numbers:
those that it was given, the results of its own instructions, from number `first` on, and the
values that are no results, which are arguments, constants and symbols. -/
inductive AtHand (given : Val → Prop) (first n : Nat) : Val → Prop
  | given {v : Val} (h : given v) : AtHand given first n v
  | result {id : Nat} {ty : IR.Ty} (hlo : first ≤ id) (hhi : id < n) :
      AtHand given first n (.inst id ty)
  | other {v : Val} (h : ∀ id ty, v ≠ .inst id ty) : AtHand given first n v

namespace AtHand

variable {given : Val → Prop} {first n : Nat} {v : Val}

/-- A result that has its number keeps it when further instructions are made. -/
theorem mono {m : Nat} (h : AtHand given first n v) (hle : n ≤ m) : AtHand given first m v := by
  cases h with
  | given h => exact .given h
  | result hlo hhi => exact .result hlo (Nat.lt_of_lt_of_le hhi hle)
  | other h => exact .other h

/-- A value at hand is computed if those that were given are: a result of an own instruction has a
number already, and the other values have none. -/
theorem below (h : AtHand given first n v) (hgiven : ∀ v, given v → v.Below n) : v.Below n := by
  cases h with
  | given h => exact hgiven v h
  | result hlo hhi => exact hhi
  | other h =>
      cases v with
      | inst id ty => exact absurd rfl (h id ty)
      | arg i ty => trivial
      | const bits n => trivial
      | global s ty => trivial
      | undef ty => trivial

end AtHand

/-- What a piece of code generation may do. A theorem about steps quantifies over the rights it
does not depend on, and a theorem about a head or a start puts in its own. -/
structure Rights where
  /-- The values that are there at its start. -/
  given : Val → Prop
  /-- The number of the first instruction that it makes itself. -/
  first : Nat
  /-- The variables that it binds. -/
  binds : LVar → Prop
  /-- The values that registers may get. -/
  sets : Context → CMRegId → Option Val → Prop
  /-- It may change the base pointer. -/
  setsBase : Prop
  /-- It may pass values to the phi nodes of a fragment. -/
  jumps : Prop

/-- Every right, for what does not depend on them. -/
def Rights.all : Rights := ⟨fun _ => True, 0, fun _ => True, fun _ _ _ => True, True, True⟩

/-! ### Steps -/

/-- One thing that code generation does, with the rights `R`. Each rule is the change of the
context that the model makes there and not a summary of it, so a property of steps is shown by
computing. -/
inductive Step (R : Rights) : Context → Context → Prop
  /-- An instruction, with its number. -/
  | emit (c : Context) (o : IR.Op Sym) : Step R c (c.emitOp o)
  /-- A look into a cache. -/
  | use (c : Context) (key : MemoKey) : Step R c (c.use key)
  | setReg (c : Context) {r : CMRegId} {o : Option Val} (h : R.sets c r o) :
      Step R c { c with regState := c.regState.set r o }
  | setBase (c : Context) (o : Option Val) (h : R.setsBase) :
      Step R c { c with regState := { c.regState with basePtr := o } }
  /-- `insertVal`. -/
  | bind (c : Context) {lv : LVar} {v : Val} (hlv : R.binds lv) (hv : AtHand R.given R.first c.nextId v) :
      Step R c { c with vMap := fun lv' =>
        if lv' = lv ∧ c.vMap lv = none then some v else c.vMap lv' }
  /-- The end of a block. -/
  | term (c : Context) (t : IR.Terminator BBId Sym) : Step R c (c.append (.term t))
  /-- A call that does not come back. -/
  | exitCall (c : Context) (isTail : Bool) (fn : Val) (args : List Val) :
      Step R c (c.append (.exitCall isTail fn args))
  /-- `addIncoming`, from the current block. -/
  | incoming (c : Context) (phi : Nat) (v : Val) (h : R.jumps) :
      Step R c { c with body := { c.body with
        incoming := c.body.incoming ++ [(phi, v, c.curBB)] } }
  /-- The default of a `SWITCH`, which is never reached. -/
  | deadBlock (c : Context) :
      Step R c { c with
        nextBB := c.nextBB + 1
        body := { c.body with
          blocks := c.body.blocks ++ [.new c.nextBB]
          insts := c.body.insts ++ [(.new c.nextBB, .term .unreachable)] } }

/-- Any number of steps. Paths of steps are closed under composition by definition, which is how
the code of one statement is put together from that of its parts. -/
abbrev Steps (R : Rights) : Context → Context → Prop := Relation.ReflTransGen (Step R)

section

variable {R : Rights} {c c' : Context}

/-- A reflexive and transitive relation of contexts holds for steps if it does for each one. All
that is shown about code generation as a whole is shown by this rule or by the induction behind
it. -/
theorem Steps.preorder {P : Context → Context → Prop} (h : Steps R c c') (hrefl : ∀ c, P c c)
    (htrans : ∀ {c c₁ c'}, P c c₁ → P c₁ c' → P c c')
    (hstep : ∀ {c c'}, Step R c c' → P c c') : P c c' := by
  induction h with
  | refl => exact hrefl c
  | tail _ hlast ih => exact htrans ih (hstep hlast)

/-- Steps stay in the block: it is the visits of arms and fragments that go to another one. -/
theorem Step.curBB (h : Step R c c') : c'.curBB = c.curBB := by cases h <;> rfl

/-- A step takes one number or none. -/
theorem Step.nextId_le (h : Step R c c') : c.nextId ≤ c'.nextId := by
  cases h with
  | emit o => exact Nat.le_succ _
  | _ => exact Nat.le_refl _

/-- The block is the same after any number of steps. -/
theorem Steps.curBB (h : Steps R c c') : c'.curBB = c.curBB :=
  h.preorder (P := fun c c' => c'.curBB = c.curBB) (fun _ => rfl) (fun h h' => h'.trans h)
    Step.curBB

/-- Numbers are never given back. -/
theorem Steps.nextId_le (h : Steps R c c') : c.nextId ≤ c'.nextId :=
  h.preorder (P := fun c c' => c.nextId ≤ c'.nextId) (fun _ => Nat.le_refl _) Nat.le_trans
    Step.nextId_le

/-- A variable has the value that it had, or one that was at hand when it was bound. There is no
third way, since `insertVal` does not change a binding. -/
theorem Steps.vMap (h : Steps R c c') {lv : LVar} {v : Val} (hv : c'.vMap lv = some v) :
    c.vMap lv = some v ∨ AtHand R.given R.first c'.nextId v := by
  induction h with
  | refl => exact .inl hv
  | @tail c₁ c' _ hlast ih =>
      have hkeep : c₁.vMap lv = some v → c.vMap lv = some v ∨ AtHand R.given R.first c'.nextId v :=
        fun hv => (ih hv).imp_right fun h => h.mono hlast.nextId_le
      cases hlast with
      | bind hbound hhand =>
          simp only at hv
          split at hv
          · cases hv
            exact .inr hhand
          · exact hkeep hv
      | _ => exact hkeep hv

/-! ### Straight-line code -/

/-- Code that gives no register a value takes steps, whatever the rights are. By induction on the
code: the rule for a register is the only one that asks for a right here. -/
theorem Gen.Plain.steps {x : Gen α} {a : α} (hx : x.Plain) (h : x.run c = .ok (a, c')) :
    Steps R c c' := by
  induction x generalizing c with
  | ret b =>
      obtain ⟨-, rfl⟩ : b = a ∧ c = c' := by simpa [run] using h
      exact .refl
  | fail msg => cases h
  | read k ih => exact ih c (hx c) h
  | emit o k ih => exact .head (.emit c o) (ih _ (hx.2 _) h)
  | setReg r v k ih => exact hx.elim
  | use key k ih => exact .head (.use c key) (ih hx h)

/-- All straight-line code takes steps, if it has the right to change the registers. -/
theorem Gen.steps_of_run {x : Gen α} {a : α} (hsets : ∀ c r o, R.sets c r o)
    (h : x.run c = .ok (a, c')) : Steps R c c' := by
  induction x generalizing c with
  | ret b =>
      obtain ⟨-, rfl⟩ : b = a ∧ c = c' := by simpa [run] using h
      exact .refl
  | fail msg => cases h
  | read k ih => exact ih c h
  | emit o k ih => exact .head (.emit c o) (ih _ h)
  | setReg r v k ih => exact .head (.setReg c (hsets c r _)) (ih h)
  | use key k ih => exact .head (.use c key) (ih h)

end

/-! ### The start of a fragment -/

/-- The values at the start of a fragment: phi nodes and arguments of the function. The latter are
among the values that are no results. -/
abbrev FragBB.EntryVal (f : FragBB) (c₀ : Context) (n : Nat) (v : Val) : Prop :=
  AtHand (fun v => ∃ p ∈ f.phiNodes, v = .inst p.1 p.2) c₀.nextId n v

/-- The rights of the start of a fragment: it may set all registers, and it binds the parameters.
It passes nothing to other fragments. -/
def FragBB.rights (f : FragBB) (c₀ : Context) : Rights where
  given v := ∃ p ∈ f.phiNodes, v = .inst p.1 p.2
  first := c₀.nextId
  binds lv := ∃ p ∈ f.frag.params, lv = p.name
  sets _ _ _ := True
  setsBase := True
  jumps := False

/-- `x` takes steps of the start of the fragment `f`, and its result satisfies `P`. The predicate
on the result carries what is known of the value of a parameter to the place where it is bound. -/
def CodegenM.Starts (x : CodegenM α) (f : FragBB) (c₀ : Context) (P : α → Prop) : Prop :=
  ∀ c a c', x c = .ok (a, c') → Steps (f.rights c₀) c c' ∧ P a

namespace CodegenM.Starts

variable {f : FragBB} {c₀ : Context}

/-- The steps of the first part and then those of the second. -/
theorem bind {x : CodegenM α} {g : α → CodegenM β} {P : α → Prop} {Q : β → Prop}
    (hx : x.Starts f c₀ P) (hg : ∀ a, P a → (g a).Starts f c₀ Q) : (x >>= g).Starts f c₀ Q := by
  intro c b c' h
  obtain ⟨a, c₁, ha, hb⟩ := CodegenM.bind_ok.mp h
  obtain ⟨hsteps, hP⟩ := hx c a c₁ ha
  obtain ⟨hrest, hQ⟩ := hg a hP c₁ b c' hb
  exact ⟨hsteps.trans hrest, hQ⟩

/-- No step. -/
theorem pure {a : α} {P : α → Prop} (h : P a) : (Pure.pure a : CodegenM α).Starts f c₀ P := by
  intro c b c' hrun
  obtain ⟨rfl, rfl⟩ := CodegenM.pure_ok.mp hrun
  exact ⟨.refl, h⟩

/-- Looking at the context is no step. -/
theorem get : (MonadState.get : CodegenM Context).Starts f c₀ fun _ => True := by
  intro c b c' h
  cases h
  exact ⟨.refl, trivial⟩

/-- Straight-line code, since a start has the right to set every register. -/
theorem lift (g : Gen α) : (liftM g : CodegenM α).Starts f c₀ fun _ => True :=
  fun _ _ _ h => ⟨g.steps_of_run (fun _ _ _ => trivial) h, trivial⟩

/-- A value that is an argument or a phi node of the fragment. -/
theorem val {g : Gen Val} (h : ∀ c v c', g.run c = .ok (v, c') →
    (∀ id ty, v ≠ .inst id ty) ∨ ∃ p ∈ f.phiNodes, v = .inst p.1 p.2) :
    (liftM g : CodegenM Val).Starts f c₀ fun v => ∀ n, f.EntryVal c₀ n v := by
  intro c v c' hrun
  refine ⟨g.steps_of_run (fun _ _ _ => trivial) hrun, fun n => ?_⟩
  rcases h c v c' hrun with hother | hphi
  · exact .other hother
  · exact .given hphi

/-- The rule for a register, with the right of the start. -/
theorem setReg (r : CMRegId) (o : Option Val) :
    (modify fun c => { c with regState := c.regState.set r o } : CodegenM Unit).Starts f c₀
      fun _ => True := by
  intro c u c' h
  cases h
  exact ⟨.single (.setReg c trivial), trivial⟩

/-- Setting or forgetting the base pointer is the rule for it. -/
theorem setBasePtr (o : Option Val) : (Codegen.setBasePtr o).Starts f c₀ fun _ => True := by
  intro c u c' h
  cases h
  exact ⟨.single (.setBase c o trivial), trivial⟩

/-- The registers of an entry, one after the other, by induction on their list. -/
theorem setupRegs (regs : List CMRegId) (hwIx : Nat) :
    (Codegen.setupRegs regs hwIx).Starts f c₀ fun _ => True := by
  induction regs generalizing hwIx with
  | nil => exact pure trivial
  | cons r regs ih =>
      refine bind get fun c _ => ?_
      split
      · exact bind (lift _) fun arg _ => bind (setReg r _) fun _ _ => ih _
      · exact bind (setReg r _) fun _ _ => ih _

/-- The registers of an internal fragment, by induction on their list too. -/
theorem setupPhiRegs (phis : List (Nat × IR.Ty)) (regs : List CMRegId) (i : Nat) :
    (Codegen.setupPhiRegs phis regs i).Starts f c₀ fun _ => True := by
  induction regs generalizing i with
  | nil => exact pure trivial
  | cons r regs ih => exact bind (lift _) fun v _ => bind (setReg r _) fun _ _ => ih _

/-- The parameters, each bound to the value that `val` gives for its position. The two kinds of
fragments differ in `val` alone: an argument of the function, or a phi node. -/
theorem bindParams {val : Nat → Gen Val} (hval : ∀ i, (liftM (val i) : CodegenM Val).Starts f c₀
      fun v => ∀ n, f.EntryVal c₀ n v) {ps : List Param}
    (hps : ∀ p ∈ ps, p ∈ f.frag.params) (i : Nat) :
    (Codegen.bindParams val ps i).Starts f c₀ fun _ => True := by
  induction ps generalizing i with
  | nil => exact pure trivial
  | cons p ps ih =>
      obtain ⟨hp, hps⟩ := List.forall_mem_cons.mp hps
      refine bind (hval i) fun v hv => bind (P := fun _ => True) ?_ fun _ _ => ih hps _
      intro c u c' h
      cases h
      exact ⟨.single (.bind c ⟨p, hp, rfl⟩ (hv _)), trivial⟩

/-- The entry of a cluster: the registers and the base pointer are arguments, and so are the
values of the parameters. -/
theorem setupStdEntry : (Codegen.setupStdEntry f.frag).Starts f c₀ fun _ => True := by
  refine bind (lift _) fun info _ => bind (setupRegs _ _) fun _ _ => bind (P := fun _ => True) ?_
    fun _ _ => bindParams (fun i => val fun c v c' h => ?_) (fun _ hp => hp) _
  · refine bind get fun c _ => ?_
    split
    · exact bind (lift _) fun arg _ => bind (lift _) fun basePtr _ => setBasePtr _
    · exact setBasePtr _
  · obtain ⟨-, fn, ty, -, -, rfl⟩ := run_getArg.mp h
    exact .inl fun _ _ => nofun

/-- An internal fragment: the values are its phi nodes, in the order in which `frag::init` made
them. -/
theorem setupFragEntry :
    (Codegen.setupFragEntry f.frag f.phiNodes).Starts f c₀ fun _ => True := by
  refine bind (lift _) fun _ _ => bind (lift _) fun info _ => bind get fun c _ => ?_
  refine bind (setupPhiRegs _ _ _) fun _ _ => bind (P := fun _ => True) ?_
    fun _ _ => bindParams (fun i => val fun c v c' h => ?_) (fun _ hp => hp) _
  · unfold setupPhiBase
    split
    · exact bind (lift _) fun basePtr _ => setBasePtr _
    · exact pure trivial
  · obtain ⟨-, p, hp, rfl⟩ := run_phiAt.mp h
    exact .inr ⟨p, List.mem_of_getElem? hp, rfl⟩

end CodegenM.Starts

/-- The context at the start of the block of a fragment: no variable is bound, and everything else
is as the code generated before left it. -/
def Context.atFrag (c : Context) (bb : BBId) : Context :=
  { c with vMap := fun _ => none, curBB := bb }

/-- The start of a fragment takes steps, from its block and without variables. The first fragment
is the entry of the cluster; which of the two setups runs does not matter here. -/
theorem fragStart_steps {i : Nat} {f : FragBB} {c c' : Context}
    (h : fragStart i f c = .ok ((), c')) : Steps (f.rights c) (c.atFrag f.bb) c' := by
  obtain ⟨⟨⟩, c₁, h₁, h₂⟩ := CodegenM.bind_ok.mp h
  cases h₁
  split at h₂
  · exact (CodegenM.Starts.setupStdEntry _ _ _ h₂).1
  · exact (CodegenM.Starts.setupFragEntry _ _ _ h₂).1

end SmlnjCfg.Codegen
