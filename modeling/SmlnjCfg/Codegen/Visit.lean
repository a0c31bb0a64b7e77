import SmlnjCfg.Codegen.Run

/-!
# `SmlnjCfg.Codegen.Visit`: code generation as a walk over the statements

A statement generates its own code, its head, and goes on with what follows
it: nothing, one statement, or arms. The first arm of a `BRANCH` is treated
as those of a `SWITCH` here, since restoring the registers that were just
saved does nothing.

* `Code`: what is left to do: a statement, arms, or fragments.
* `Emits`: successful code generation, with a rule for each way to go on;
  `emits_frags` and `Emits.codegen` relate it to `codegen`.
* `Calls`, `Visits`: the statements and contexts that code generation comes to.
* `Visits.invariant`: the induction over a whole run.
-/

set_option autoImplicit false

namespace SmlnjCfg.Cfg

open Codegen Gen

/-- What follows the head of a statement: nothing, one statement in the same block, or the arms of
a branch in blocks of their own. -/
inductive Kids where
  | stop
  | next (k : Stm .cpp)
  | arms (ks : List (Stm .cpp))

/-- What follows the head of a statement. Only a jump has nothing to follow, and only `SWITCH` and
`BRANCH` have arms. -/
def Stm.kids : Stm .cpp → Kids
  | .LET _ _ k => .next k
  | .ALLOC _ _ _ k => .next k
  | .APPLY .. => .stop
  | .THROW .. => .stop
  | .GOTO .. => .stop
  | .SWITCH _ cases => .arms cases
  | .BRANCH _ _ _ trueK falseK => .arms [trueK, falseK]
  | .ARITH _ _ _ k => .next k
  | .SETTER _ _ k => .next k
  | .CALLGC _ _ k => .next k
  | .RCC .. => .stop

/-- The code of a statement itself, up to the code of what follows it. It is `codegen` without
the recursive calls, so that a property of code generation is one lemma about heads and one
induction. -/
def Stm.head (frag : Nat) : Stm .cpp → List Nat → CodegenM Unit
  | .LET exp param _, _ => do
      let v ← liftM exp.codegen
      bindParam param v
  | .ALLOC oper args lhs _, _ => do
      let args ← liftM (Exp.codegenArgs args)
      let v ← liftM (oper.codegen args)
      insertVal lhs v
  | .SWITCH arg cases, path => do
      let arg ← liftM arg.codegen
      let arg ← liftM (asInt arg)
      let arg ← liftM (createTrunc arg i32Ty)
      let curBlk ← getCurBB
      let dfltBlk ← newBB
      setInsertPoint dfltBlk
      createTerm .unreachable
      setInsertPoint curBlk
      createTerm (.switch arg dfltBlk
        ((List.range cases.length).map fun (i : Nat) =>
          ((BitVec.ofInt 32 i).toNat, BBId.stm frag (i :: path))))
  | .BRANCH oper args prob _ _, path => do
      let args ← liftM (Exp.codegenArgs args)
      let cond ← liftM (oper.codegen args)
      createTerm (.condBr cond (.stm frag (0 :: path)) (.stm frag (1 :: path))
        (if prob = 0 then none else some prob))
  | .ARITH oper args param _, _ => do
      let args ← liftM (Exp.codegenArgs args)
      let v ← oper.codegen args
      bindParam param v
  | .SETTER oper args _, _ => do
      let args ← liftM (Exp.codegenArgs args)
      liftM (oper.codegen args)
  | .CALLGC roots newRoots _, _ => do
      let extra ← liftM (createArgs (.con .STD_FUN))
      let vs ← liftM (rootArgs roots)
      callGC (extra ++ vs) newRoots
  | .APPLY fn args tys, path => Stm.codegen frag (.APPLY fn args tys) path
  | .THROW fn args tys, path => Stm.codegen frag (.THROW fn args tys) path
  | .GOTO lab args, path => Stm.codegen frag (.GOTO lab args) path
  | .RCC reentrant linkage proto args results live k, path =>
      Stm.codegen frag (.RCC reentrant linkage proto args results live k) path

/-- The context at the start of an arm: the special registers are those at the branch, and the
insertion point is the block of the arm. The map of variables is not restored, as in the
source. -/
def armStart (frag : Nat) (saved : CMRegState) (path : List Nat) (i : Nat) (c : Context) :
    Context :=
  { c with regState := c.regState.copyFrom saved, curBB := .stm frag (i :: path) }

/-- Code generation goes on with what follows. For arms the registers are saved once, before the
first. -/
def Kids.codegen (frag : Nat) : Kids → List Nat → CodegenM Unit
  | .stop, _ => return ()
  | .next k, path => k.codegen frag path
  | .arms ks, path => do
      let saved ← saveSMLRegState
      Stm.codegenArms frag saved ks path 0

/-- The first arm, and then the others from the context it leaves. -/
theorem Stm.codegenArms_cons (frag : Nat) (saved : CMRegState) (k : Stm .cpp)
    (ks : List (Stm .cpp)) (path : List Nat) (i : Nat) (c : Context) :
    Stm.codegenArms frag saved (k :: ks) path i c
      = (k.codegen frag (i :: path) >>= fun _ => Stm.codegenArms frag saved ks path (i + 1))
        (armStart frag saved path i c) := rfl

/-- The registers that were just saved need not be restored, so the two arms of a `BRANCH` are
generated like those of a `SWITCH`, whose loop restores before every arm. -/
theorem Stm.codegenArms_branch (frag : Nat) (trueK falseK : Stm .cpp) (path : List Nat) :
    (do
      let saveRegs ← saveSMLRegState
      setInsertPoint (.stm frag (0 :: path))
      trueK.codegen frag (0 :: path)
      restoreSMLRegState saveRegs
      setInsertPoint (.stm frag (1 :: path))
      falseK.codegen frag (1 :: path))
    = (do
      let saved ← saveSMLRegState
      Stm.codegenArms frag saved [trueK, falseK] path 0) := by
  simp only [Stm.codegenArms, bind_pure_unit]
  rfl

/-- A statement generates its head and goes on. This is the one place where the two ways of
writing code generation meet. -/
theorem Stm.codegen_eq (frag : Nat) (s : Stm .cpp) (path : List Nat) :
    s.codegen frag path = s.head frag path >>= fun _ => s.kids.codegen frag path := by
  cases s with
  | LET exp param k => simp only [Stm.codegen, head, kids, Kids.codegen, bind_assoc]
  | ALLOC oper args lhs k => simp only [Stm.codegen, head, kids, Kids.codegen, bind_assoc]
  | APPLY fn args tys => simp only [head, kids, Kids.codegen, bind_pure_unit]
  | THROW fn args tys => simp only [head, kids, Kids.codegen, bind_pure_unit]
  | GOTO lab args => simp only [head, kids, Kids.codegen, bind_pure_unit]
  | SWITCH arg cases => simp only [Stm.codegen, head, kids, Kids.codegen, bind_assoc]
  | BRANCH oper args prob trueK falseK =>
      simp only [Stm.codegen, head, kids, Kids.codegen, bind_assoc, Stm.codegenArms_branch]
  | ARITH oper args param k => simp only [Stm.codegen, head, kids, Kids.codegen, bind_assoc]
  | SETTER oper args k => simp only [Stm.codegen, head, kids, Kids.codegen, bind_assoc]
  | CALLGC roots newRoots k => simp only [Stm.codegen, head, kids, Kids.codegen, bind_assoc]
  | RCC reentrant linkage proto args results live k =>
      simp only [head, kids, Kids.codegen, bind_pure_unit]

end SmlnjCfg.Cfg

namespace SmlnjCfg.Codegen

open Cfg Gen

/-! ### What is left to do -/

/-- What code is generated for: a statement, the arms of a statement from number
`i` on, or the fragments of a cluster from number `i` on. -/
inductive Code where
  | stm (frag : Nat) (s : Stm .cpp) (path : List Nat)
  | arms (frag : Nat) (saved : CMRegState) (ks : List (Stm .cpp)) (path : List Nat) (i : Nat)
  | frags (fs : List FragBB) (i : Nat)

/-- Generate it, by the function of the source that has this task. -/
def Code.codegen : Code → CodegenM Unit
  | .stm frag s path => s.codegen frag path
  | .arms frag saved ks path i => Stm.codegenArms frag saved ks path i
  | .frags fs i => codegenFrags fs i

/-- The start of the fragment with number `i`: the first one is entered as a function, and the
others through their phi nodes. -/
def fragStart (i : Nat) (frag : FragBB) : CodegenM Unit := do
  beginFrag frag.bb
  if i == 0 then setupStdEntry frag.frag else setupFragEntry frag.frag frag.phiNodes

/-- The first fragment, its start and its body, and then the others. -/
theorem codegenFrags_cons (frag : FragBB) (frags : List FragBB) (i : Nat) :
    codegenFrags (frag :: frags) i
      = fragStart i frag >>= fun _ => frag.frag.body.codegen i [] >>= fun _ =>
        codegenFrags frags (i + 1) := by
  cases i with
  | zero => simp only [codegenFrags, codegenFrag, fragStart, bind_assoc, beq_self_eq_true, if_true]
  | succ i =>
      have hi : (i + 1 == 0) = false := rfl
      simp only [codegenFrags, codegenFrag, fragStart, bind_assoc, hi, Bool.false_eq_true, if_false]

/-! ### Successful code generation -/

/-- Code generation for `code` goes from one context to another: a derivation has one node for
each statement, each list of arms and each fragment, so that an induction on it follows the
generator. -/
inductive Emits : Code → Context → Context → Prop
  | stop {frag : Nat} {s : Stm .cpp} {path : List Nat} {c c' : Context} (hk : s.kids = .stop)
      (h : s.head frag path c = .ok ((), c')) : Emits (.stm frag s path) c c'
  | next {frag : Nat} {s k : Stm .cpp} {path : List Nat} {c c₁ c' : Context}
      (hk : s.kids = .next k) (h : s.head frag path c = .ok ((), c₁))
      (hnext : Emits (.stm frag k path) c₁ c') : Emits (.stm frag s path) c c'
  | arms {frag : Nat} {s : Stm .cpp} {ks : List (Stm .cpp)} {path : List Nat}
      {c c₁ c' : Context} (hk : s.kids = .arms ks) (h : s.head frag path c = .ok ((), c₁))
      (harms : Emits (.arms frag c₁.regState ks path 0) c₁ c') : Emits (.stm frag s path) c c'
  | noArm {frag : Nat} {saved : CMRegState} {path : List Nat} {i : Nat} {c : Context} :
      Emits (.arms frag saved [] path i) c c
  | arm {frag : Nat} {saved : CMRegState} {k : Stm .cpp} {ks : List (Stm .cpp)}
      {path : List Nat} {i : Nat} {c c₁ c' : Context}
      (harm : Emits (.stm frag k (i :: path)) (armStart frag saved path i c) c₁)
      (hrest : Emits (.arms frag saved ks path (i + 1)) c₁ c') :
      Emits (.arms frag saved (k :: ks) path i) c c'
  | noFrag {i : Nat} {c : Context} : Emits (.frags [] i) c c
  | frag {f : FragBB} {fs : List FragBB} {i : Nat} {c c₁ c₂ c' : Context}
      (hbb : f.bb = .stm i []) (hstart : fragStart i f c = .ok ((), c₁)) (hbody : Emits (.stm i f.frag.body []) c₁ c₂)
      (hrest : Emits (.frags fs (i + 1)) c₂ c') : Emits (.frags (f :: fs) i) c c'

/-- A statement has been generated if its head has and what follows has. The recursion supplies
the two hypotheses. -/
theorem emits_of_kids {frag : Nat} {s : Stm .cpp} {path : List Nat} {c c' : Context}
    (hnext : ∀ k c₁, s.kids = .next k → k.codegen frag path c₁ = .ok ((), c') →
      Emits (.stm frag k path) c₁ c')
    (harms : ∀ ks saved c₁, s.kids = .arms ks →
      Stm.codegenArms frag saved ks path 0 c₁ = .ok ((), c') →
      Emits (.arms frag saved ks path 0) c₁ c')
    (h : s.codegen frag path c = .ok ((), c')) : Emits (.stm frag s path) c c' := by
  rw [Stm.codegen_eq] at h
  obtain ⟨⟨⟩, c₁, hhead, h⟩ := CodegenM.bind_ok.mp h
  cases hk : s.kids with
  | stop =>
      rw [hk] at h
      obtain ⟨-, rfl⟩ := CodegenM.pure_ok.mp h
      exact .stop hk hhead
  | next k =>
      rw [hk] at h
      exact .next hk hhead (hnext k c₁ hk h)
  | arms ks =>
      rw [hk] at h
      exact .arms hk hhead (harms ks _ c₁ hk h)

mutual

/-- Every successful run of code generation has a derivation, by recursion on the statement. -/
theorem emits_stm (frag : Nat) : (s : Stm .cpp) → {path : List Nat} → {c c' : Context} →
    s.codegen frag path c = .ok ((), c') → Emits (.stm frag s path) c c'
  | .LET exp param k, path, c, c', h =>
      emits_of_kids (by rintro _ c₁ ⟨⟩ h; exact emits_stm frag k h)
        (by rintro _ saved c₁ ⟨⟩) h
  | .ALLOC oper args lhs k, path, c, c', h =>
      emits_of_kids (by rintro _ c₁ ⟨⟩ h; exact emits_stm frag k h)
        (by rintro _ saved c₁ ⟨⟩) h
  | .APPLY fn args tys, path, c, c', h => emits_of_kids (by rintro _ c₁ ⟨⟩)
      (by rintro _ saved c₁ ⟨⟩) h
  | .THROW fn args tys, path, c, c', h => emits_of_kids (by rintro _ c₁ ⟨⟩)
      (by rintro _ saved c₁ ⟨⟩) h
  | .GOTO lab args, path, c, c', h => emits_of_kids (by rintro _ c₁ ⟨⟩)
      (by rintro _ saved c₁ ⟨⟩) h
  | .SWITCH arg cases, path, c, c', h =>
      emits_of_kids (by rintro _ c₁ ⟨⟩) (by rintro _ saved c₁ ⟨⟩ h; exact emits_arms frag cases h) h
  | .BRANCH oper args prob trueK falseK, path, c, c', h =>
      emits_of_kids (by rintro _ c₁ ⟨⟩) (by
        rintro _ saved c₁ ⟨⟩ h
        rw [Stm.codegenArms_cons] at h
        obtain ⟨⟨⟩, c₂, htrue, h⟩ := CodegenM.bind_ok.mp h
        rw [Stm.codegenArms_cons] at h
        obtain ⟨⟨⟩, c₃, hfalse, h⟩ := CodegenM.bind_ok.mp h
        obtain ⟨-, rfl⟩ := CodegenM.pure_ok.mp h
        exact .arm (emits_stm frag trueK htrue) (.arm (emits_stm frag falseK hfalse) .noArm)) h
  | .ARITH oper args param k, path, c, c', h =>
      emits_of_kids (by rintro _ c₁ ⟨⟩ h; exact emits_stm frag k h)
        (by rintro _ saved c₁ ⟨⟩) h
  | .SETTER oper args k, path, c, c', h =>
      emits_of_kids (by rintro _ c₁ ⟨⟩ h; exact emits_stm frag k h)
        (by rintro _ saved c₁ ⟨⟩) h
  | .CALLGC roots newRoots k, path, c, c', h =>
      emits_of_kids (by rintro _ c₁ ⟨⟩ h; exact emits_stm frag k h)
        (by rintro _ saved c₁ ⟨⟩) h
  | .RCC reentrant linkage proto args results live k, path, c, c', h =>
      emits_of_kids (by rintro _ c₁ ⟨⟩)
      (by rintro _ saved c₁ ⟨⟩) h

/-- The same for a list of arms, each from the context that the one before it leaves. -/
theorem emits_arms (frag : Nat) : (ks : List (Stm .cpp)) → {saved : CMRegState} →
    {path : List Nat} → {i : Nat} → {c c' : Context} →
    Stm.codegenArms frag saved ks path i c = .ok ((), c') → Emits (.arms frag saved ks path i) c c'
  | [], saved, path, i, c, c', h => by
      obtain ⟨-, rfl⟩ := CodegenM.pure_ok.mp h
      exact .noArm
  | k :: ks, saved, path, i, c, c', h => by
      rw [Stm.codegenArms_cons] at h
      obtain ⟨⟨⟩, c₁, harm, h⟩ := CodegenM.bind_ok.mp h
      exact .arm (emits_stm frag k harm) (emits_arms frag ks h)

end

/-- The fragments with the numbers from `i` on start in their blocks, as initialization places
them. -/
def Placed : List FragBB → Nat → Prop
  | [], _ => True
  | f :: fs, i => f.bb = .stm i [] ∧ Placed fs (i + 1)

/-- The same for a list of fragments. -/
theorem emits_frags (fs : List FragBB) {i : Nat} {c c' : Context} (hbb : Placed fs i)
    (h : codegenFrags fs i c = .ok ((), c')) : Emits (.frags fs i) c c' := by
  induction fs generalizing i c with
  | nil =>
      obtain ⟨-, rfl⟩ := CodegenM.pure_ok.mp h
      exact .noFrag
  | cons f fs ih =>
      rw [codegenFrags_cons] at h
      obtain ⟨⟨⟩, c₁, hstart, h⟩ := CodegenM.bind_ok.mp h
      obtain ⟨⟨⟩, c₂, hbody, h⟩ := CodegenM.bind_ok.mp h
      exact .frag hbb.1 hstart (emits_stm i _ hbody) (ih hbb.2 h)

/-- What `Emits` describes is `codegen`, so that nothing is derived that the generator does not
do. -/
theorem Emits.codegen {code : Code} {c c' : Context} (h : Emits code c c') :
    code.codegen c = .ok ((), c') := by
  induction h with
  | stop hk h =>
      rw [Code.codegen, Stm.codegen_eq, hk]
      exact CodegenM.bind_ok.mpr ⟨(), _, h, rfl⟩
  | next hk h _ ih =>
      rw [Code.codegen, Stm.codegen_eq, hk]
      exact CodegenM.bind_ok.mpr ⟨(), _, h, ih⟩
  | arms hk h _ ih =>
      rw [Code.codegen, Stm.codegen_eq, hk]
      exact CodegenM.bind_ok.mpr ⟨(), _, h, ih⟩
  | noArm => rfl
  | arm _ _ iharm ihrest =>
      rw [Code.codegen, Stm.codegenArms_cons]
      exact CodegenM.bind_ok.mpr ⟨(), _, iharm, ihrest⟩
  | noFrag => rfl
  | frag _ hstart _ _ ihbody ihrest =>
      rw [Code.codegen, codegenFrags_cons]
      exact CodegenM.bind_ok.mpr ⟨(), _, hstart, CodegenM.bind_ok.mpr ⟨(), _, ihbody, ihrest⟩⟩

/-- Code generation has one result, since it is a function. -/
theorem Emits.unique {code : Code} {c c₁ c₂ : Context} (h₁ : Emits code c c₁)
    (h₂ : Emits code c c₂) : c₁ = c₂ := by
  have heq := h₁.codegen.symm.trans h₂.codegen
  injection heq with heq
  exact congrArg Prod.snd heq

/-! ### The statements that code generation comes to -/

/-- Code generation for one thing starts that for another one, in the context at that point. A
property that every call preserves holds wherever code generation comes. -/
inductive Calls : Code × Context → Code × Context → Prop
  | next {frag : Nat} {s k : Stm .cpp} {path : List Nat} {c c₁ : Context}
      (hk : s.kids = .next k) (h : s.head frag path c = .ok ((), c₁)) :
      Calls (.stm frag s path, c) (.stm frag k path, c₁)
  | arms {frag : Nat} {s : Stm .cpp} {ks : List (Stm .cpp)} {path : List Nat} {c c₁ : Context}
      (hk : s.kids = .arms ks) (h : s.head frag path c = .ok ((), c₁)) :
      Calls (.stm frag s path, c) (.arms frag c₁.regState ks path 0, c₁)
  | arm {frag : Nat} {saved : CMRegState} {k : Stm .cpp} {ks : List (Stm .cpp)}
      {path : List Nat} {i : Nat} {c : Context} :
      Calls (.arms frag saved (k :: ks) path i, c)
        (.stm frag k (i :: path), armStart frag saved path i c)
  | laterArm {frag : Nat} {saved : CMRegState} {k : Stm .cpp} {ks : List (Stm .cpp)}
      {path : List Nat} {i : Nat} {c c₁ : Context}
      (harm : Emits (.stm frag k (i :: path)) (armStart frag saved path i c) c₁) :
      Calls (.arms frag saved (k :: ks) path i, c) (.arms frag saved ks path (i + 1), c₁)
  | frag {f : FragBB} {fs : List FragBB} {i : Nat} {c c₁ : Context} (hbb : f.bb = .stm i [])
      (hstart : fragStart i f c = .ok ((), c₁)) :
      Calls (.frags (f :: fs) i, c) (.stm i f.frag.body [], c₁)
  | laterFrag {f : FragBB} {fs : List FragBB} {i : Nat} {c c₁ c₂ : Context}
      (hbb : f.bb = .stm i []) (hstart : fragStart i f c = .ok ((), c₁)) (hbody : Emits (.stm i f.frag.body []) c₁ c₂) :
      Calls (.frags (f :: fs) i, c) (.frags fs (i + 1), c₂)

/-- Code generation comes to another thing in a number of steps. -/
def Visits : Code × Context → Code × Context → Prop := Relation.ReflTransGen Calls

/-- The steps to a place and from it on. -/
theorem Visits.trans {p q r : Code × Context} (h : Visits p q) (h' : Visits q r) : Visits p r :=
  Relation.ReflTransGen.trans h h'

/-- What every call preserves holds of everything that code generation comes to, by induction on
the calls on the way. -/
theorem Visits.invariant {I : Code → Context → Prop}
    (hcall : ∀ code c code' c', Calls (code, c) (code', c') → I code c → I code' c')
    {p q : Code × Context} (h : Visits p q) (hI : I p.1 p.2) : I q.1 q.2 := by
  induction h with
  | refl => exact hI
  | tail _ hstep ih => exact hcall _ _ _ _ hstep ih

end SmlnjCfg.Codegen
