import SmlnjCfg.Codegen.Computed

/-!
# `SmlnjCfg.Codegen.Scope`: the variables that statements bind

A statement adds bindings for the variables it binds, and a variable that is bound keeps its
value: `insertVal` calls `unordered_map::insert`, which does nothing when the key is there. So a
variable may be bound to a value that another statement computed.

* `Stm.head_binds`, `Stm.head_bound`: the head of a statement.
* `runInv_bound`: a variable that is bound, in all that follows.
-/

set_option autoImplicit false

namespace SmlnjCfg.Codegen

open Cfg Gen

/-- From `c` to `c'`, only variables that satisfy `B` and have no value get one. -/
def Binds (B : LVar → Prop) (c c' : Context) : Prop :=
  ∀ lv, (c.vMap lv).isSome = true ∨ ¬ B lv → c'.vMap lv = c.vMap lv

namespace Binds

variable {B : LVar → Prop}

theorem trans {c c₁ c' : Context} (h : Binds B c c₁) (h' : Binds B c₁ c') : Binds B c c' := by
  intro lv hlv
  have heq := h lv hlv
  rw [← heq] at hlv
  exact (h' lv hlv).trans heq

theorem insertVal {lv : LVar} {v : Val} {c c' : Context} (hlv : B lv)
    (h : insertVal lv v c = .ok ((), c')) : Binds B c c' := by
  intro lv' hlv'
  cases h
  show (if lv' = lv ∧ c.vMap lv = none then some v else c.vMap lv') = c.vMap lv'
  rw [if_neg]
  rintro ⟨rfl, hnone⟩
  rcases hlv' with hsome | hnot
  · rw [hnone] at hsome
    cases hsome
  · exact hnot hlv

end Binds

/-- Steps bind what they have the right to. -/
theorem Step.binds {R : Rights} {c c' : Context} (h : Step R c c') : Binds R.binds c c' := by
  cases h with
  | @bind lv v hlv _ => exact Binds.insertVal (v := v) hlv rfl
  | _ => exact fun _ _ => rfl

/-- The head of a statement gives a value to the variables that it binds only. -/
theorem Stm.head_binds {frag : Nat} {s : Stm .cpp} {path : List Nat} {c c' : Context}
    (h : s.head frag path c = .ok ((), c')) : Binds (· ∈ s.binds) c c' :=
  Stm.head_preorder h (fun _ _ _ => rfl) Binds.trans Step.binds
    fun hbr lv _ => congrFun (overflowBranch_env hbr).2.2.1 lv

/-- After an insertion the variable has a value, the old one if there was one. -/
theorem insertVal_bound {lv : LVar} {v : Val} {c c' : Context}
    (h : insertVal lv v c = .ok ((), c')) : (c'.vMap lv).isSome = true := by
  cases h
  show (if lv = lv ∧ c.vMap lv = none then some v else c.vMap lv).isSome = true
  cases hlv : c.vMap lv <;> simp

theorem extractRoots_binds {call : Nat} {newRoots : List LVar} {ix : Nat} {c c' : Context}
    (h : extractRoots call newRoots ix c = .ok ((), c')) : Binds (· ∈ newRoots) c c' := by
  induction newRoots generalizing ix c with
  | nil =>
      obtain ⟨-, rfl⟩ := CodegenM.pure_ok.mp h
      exact fun _ _ => rfl
  | cons lv newRoots ih =>
      obtain ⟨v, c₁, h₁, h₂⟩ := CodegenM.bind_ok.mp h
      obtain ⟨⟨⟩, c₂, h₃, h₄⟩ := CodegenM.bind_ok.mp h₂
      have hload : Binds (· ∈ lv :: newRoots) c c₁ := by
        cases h₁
        exact fun _ _ => rfl
      refine (hload.trans (.insertVal List.mem_cons_self h₃)).trans fun lv' hlv' => ?_
      exact ih h₄ lv' (hlv'.imp_right fun hnot hmem => hnot (List.mem_cons_of_mem _ hmem))

/-- All new roots have values when they have been extracted. -/
theorem extractRoots_bound {call : Nat} {newRoots : List LVar} {ix : Nat} {c c' : Context}
    (h : extractRoots call newRoots ix c = .ok ((), c')) {lv : LVar} (hlv : lv ∈ newRoots) :
    (c'.vMap lv).isSome = true := by
  induction newRoots generalizing ix c with
  | nil => cases hlv
  | cons lv' newRoots ih =>
      obtain ⟨v, c₁, -, h₂⟩ := CodegenM.bind_ok.mp h
      obtain ⟨⟨⟩, c₂, h₃, h₄⟩ := CodegenM.bind_ok.mp h₂
      rcases List.mem_cons.mp hlv with rfl | hlv
      · -- the roots after it do not take the binding back
        have hbound := insertVal_bound h₃
        rwa [extractRoots_binds h₄ lv (.inl hbound)]
      · exact ih h₄ hlv

/-- After the head of a statement all variables that it binds have values. They need not
be those that the statement computes, since a variable that had a value keeps it. -/
theorem Stm.head_bound {frag : Nat} {s : Stm .cpp} {path : List Nat} {c c' : Context}
    (h : s.head frag path c = .ok ((), c')) {lv : LVar} (hlv : lv ∈ s.binds) :
    (c'.vMap lv).isSome = true := by
  cases s with
  | LET exp param k =>
      obtain rfl := List.mem_singleton.mp hlv
      obtain ⟨v, c₁, -, h₂⟩ := CodegenM.bind_ok.mp h
      exact insertVal_bound h₂
  | ALLOC oper args lhs k =>
      obtain rfl := List.mem_singleton.mp hlv
      obtain ⟨us, c₁, -, h₂⟩ := CodegenM.bind_ok.mp h
      obtain ⟨v, c₂, -, h₃⟩ := CodegenM.bind_ok.mp h₂
      exact insertVal_bound h₃
  | ARITH oper args param k =>
      obtain rfl := List.mem_singleton.mp hlv
      obtain ⟨us, c₁, -, h₂⟩ := CodegenM.bind_ok.mp h
      obtain ⟨v, c₂, -, h₃⟩ := CodegenM.bind_ok.mp h₂
      exact insertVal_bound h₃
  | CALLGC roots newRoots k =>
      obtain ⟨extra, c₁, -, h₂⟩ := CodegenM.bind_ok.mp h
      obtain ⟨us, c₂, -, h₃⟩ := CodegenM.bind_ok.mp h₂
      obtain ⟨fn, c₃, -, h₄⟩ := CodegenM.bind_ok.mp h₃
      obtain ⟨call, c₄, -, h₅⟩ := CodegenM.bind_ok.mp h₄
      obtain ⟨⟨⟩, c₅, -, h₆⟩ := CodegenM.bind_ok.mp h₅
      exact extractRoots_bound h₆ hlv
  | APPLY fn args tys => cases hlv
  | THROW fn args tys => cases hlv
  | GOTO lab args => cases hlv
  | SWITCH arg cases => cases hlv
  | BRANCH oper args prob trueK falseK => cases hlv
  | SETTER oper args k => cases hlv
  | RCC reentrant linkage proto args results live k => cases hlv

/-- A variable that is bound keeps its value. -/
theorem runInv_bound (lv : LVar) (v : Val) :
    RunInv (fun _ _ => True) (fun c => c.vMap lv = some v) (fun _ _ => True)
      (fun _ _ => False) where
  head h _ hv := (Stm.head_binds h lv (.inl (by rw [hv]; rfl))).trans hv
  saved _ := trivial
  arm hv _ := hv
  later _ _ := trivial
  frag _ _ h _ := h.elim
  rest _ h := h

end SmlnjCfg.Codegen
