import SmlnjCfg.Codegen.Regs
import SmlnjCfg.Codegen.Scope

/-!
# `SmlnjCfg.Codegen.Fresh`: fragments that bind every variable once

Code generation never takes a binding back: what the first arm of a `BRANCH` binds
is still there when code for the second one is generated. That does no harm if
every variable of a fragment is bound in one place.

* `UniqueBinds`: the parameters and the variables that statements bind are distinct.
* `Emits.vMap_eq`, `Emits.binders_bound`: code generation for a statement binds its
  variables only, and all of them.
* `Visits.fresh`: no variable that is still to be bound has a value.
-/

set_option autoImplicit false

namespace SmlnjCfg.Cfg

mutual

/-- The variables that a statement and all that follows it bind. -/
def Stm.binders : Stm .cpp → List LVar
  | .LET _ param k => param.name :: k.binders
  | .ALLOC _ _ lhs k => lhs :: k.binders
  | .APPLY .. => []
  | .THROW .. => []
  | .GOTO .. => []
  | .SWITCH _ cases => Stm.bindersArms cases
  | .BRANCH _ _ _ trueK falseK => trueK.binders ++ falseK.binders
  | .ARITH _ _ param k => param.name :: k.binders
  | .SETTER _ _ k => k.binders
  | .CALLGC _ newRoots k => newRoots ++ k.binders
  | .RCC .. => []

/-- The variables that arms bind. -/
def Stm.bindersArms : List (Stm .cpp) → List LVar
  | [] => []
  | k :: ks => k.binders ++ Stm.bindersArms ks

end

/-- The variables that what follows a head binds. -/
def Kids.binders : Kids → List LVar
  | .stop => []
  | .next k => k.binders
  | .arms ks => Stm.bindersArms ks

theorem Stm.binders_eq (s : Stm .cpp) : s.binders = s.binds ++ s.kids.binders := by
  cases s <;> simp [binders, binds, kids, Kids.binders, bindersArms]

/-- Every variable of the fragment is bound in one place. -/
def Frag.UniqueBinds (f : Frag .cpp) : Prop :=
  (f.params.map (·.name) ++ f.body.binders).Nodup

instance (f : Frag .cpp) : Decidable f.UniqueBinds := inferInstanceAs (Decidable (List.Nodup _))

end SmlnjCfg.Cfg

namespace SmlnjCfg.Codegen

open Cfg Gen

variable {α β : Type}

/-! ### The variables that code generation binds -/

/-- The variables that code generation for `code` binds within a fragment. -/
def Code.binders : Code → List LVar
  | .stm _ s _ => s.binders
  | .arms _ _ ks _ _ => Stm.bindersArms ks
  | .frags .. => []

/-- `code` is within a fragment. -/
def Code.inFrag : Code → Bool
  | .frags .. => false
  | _ => true

/-- Code generation for a statement changes its own variables only. -/
theorem Emits.vMap_eq {code : Code} {c c' : Context} (h : Emits code c c')
    (hin : code.inFrag = true) {lv : LVar} : lv ∉ code.binders → c'.vMap lv = c.vMap lv := by
  induction h with
  | @stop frag s path c c' hk h =>
      intro hlv
      rw [Code.binders, Stm.binders_eq, List.mem_append, not_or] at hlv
      exact Stm.head_binds h lv (.inr hlv.1)
  | @next frag s k path c c₁ c' hk h _ ih =>
      intro hlv
      rw [Code.binders, Stm.binders_eq, hk, List.mem_append, not_or] at hlv
      exact (ih rfl hlv.2).trans (Stm.head_binds h lv (.inr hlv.1))
  | @arms frag s ks path c c₁ c' hk h _ ih =>
      intro hlv
      rw [Code.binders, Stm.binders_eq, hk, List.mem_append, not_or] at hlv
      exact (ih rfl hlv.2).trans (Stm.head_binds h lv (.inr hlv.1))
  | noArm => exact fun _ => rfl
  | @arm frag saved k ks path i c c₁ c' _ _ iharm ihrest =>
      intro hlv
      rw [Code.binders, Stm.bindersArms, List.mem_append, not_or] at hlv
      exact (ihrest rfl hlv.2).trans (iharm rfl hlv.1)
  | noFrag => cases hin
  | frag => cases hin

/-- A variable that has a value keeps it during code generation for a statement. -/
theorem Emits.vMap_bound {code : Code} {c c' : Context} (h : Emits code c c')
    (hin : code.inFrag = true) {lv : LVar} {v : Val} : c.vMap lv = some v →
    c'.vMap lv = some v := by
  induction h with
  | stop hk h => exact fun hv => (runInv_bound lv v).head h trivial hv
  | next hk h _ ih => exact fun hv => ih rfl ((runInv_bound lv v).head h trivial hv)
  | arms hk h _ ih => exact fun hv => ih rfl ((runInv_bound lv v).head h trivial hv)
  | noArm => exact id
  | arm _ _ iharm ihrest => exact fun hv => ihrest rfl (iharm rfl hv)
  | noFrag => cases hin
  | frag => cases hin

/-- After code generation for a statement all variables that it binds have values. -/
theorem Emits.binders_bound {code : Code} {c c' : Context} (h : Emits code c c')
    (hin : code.inFrag = true) {lv : LVar} : lv ∈ code.binders → (c'.vMap lv).isSome = true := by
  have hkeep : ∀ {code : Code} {c c' : Context}, Emits code c c' → code.inFrag = true →
      (c.vMap lv).isSome = true → (c'.vMap lv).isSome = true := fun he hin hv => by
    obtain ⟨v, hv⟩ := Option.isSome_iff_exists.mp hv
    rw [he.vMap_bound hin hv]
    rfl
  induction h with
  | @stop frag s path c c' hk h =>
      intro hlv
      rw [Code.binders, Stm.binders_eq, hk, Kids.binders, List.append_nil] at hlv
      exact Stm.head_bound h hlv
  | @next frag s k path c c₁ c' hk h hnext ih =>
      intro hlv
      rw [Code.binders, Stm.binders_eq, hk] at hlv
      rcases List.mem_append.mp hlv with hlv | hlv
      · exact hkeep hnext rfl (Stm.head_bound h hlv)
      · exact ih rfl hlv
  | @arms frag s ks path c c₁ c' hk h harms ih =>
      intro hlv
      rw [Code.binders, Stm.binders_eq, hk] at hlv
      rcases List.mem_append.mp hlv with hlv | hlv
      · exact hkeep harms rfl (Stm.head_bound h hlv)
      · exact ih rfl hlv
  | noArm => exact fun hlv => by cases hlv
  | @arm frag saved k ks path i c c₁ c' _ hrest iharm ihrest =>
      intro hlv
      rcases List.mem_append.mp hlv with hlv | hlv
      · exact hkeep hrest rfl (iharm rfl hlv)
      · exact ihrest rfl hlv
  | noFrag => cases hin
  | frag => cases hin

/-- The base pointer is set at the start of a fragment only. -/
theorem Emits.basePtr_eq {code : Code} {c c' : Context} (h : Emits code c c')
    (hin : code.inFrag = true) : c'.regState.basePtr = c.regState.basePtr := by
  induction h with
  | stop hk h => exact (Stm.head_keepsPlaces h).basePtr
  | next hk h _ ih => exact (ih rfl).trans (Stm.head_keepsPlaces h).basePtr
  | arms hk h _ ih => exact (ih rfl).trans (Stm.head_keepsPlaces h).basePtr
  | noArm => rfl
  | arm _ _ iharm ihrest => exact (ihrest rfl).trans (iharm rfl)
  | noFrag => cases hin
  | frag => cases hin

/-! ### The start of a fragment -/

/-- At the start of a fragment only its parameters have values. -/
theorem fragStart_vMap {i : Nat} {f : FragBB} {c c' : Context}
    (h : fragStart i f c = .ok ((), c')) {lv : LVar} (hlv : lv ∉ f.frag.params.map (·.name)) :
    c'.vMap lv = none := by
  refine (fragStart_steps h).preorder (P := Binds fun lv => ∃ p ∈ f.frag.params, lv = p.name)
    (fun _ _ _ => rfl) Binds.trans Step.binds lv (.inr ?_)
  rintro ⟨p, hp, rfl⟩
  exact hlv (List.mem_map_of_mem hp)

/-! ### Variables that are still to be bound -/

/-- The variables that `code` binds are distinct, and none has a value. -/
def Code.Fresh (code : Code) (c : Context) : Prop :=
  match code with
  | .frags fs _ => ∀ f ∈ fs, f.frag.UniqueBinds
  | code => code.binders.Nodup ∧ ∀ lv ∈ code.binders, c.vMap lv = none

/-- The variables after a head. -/
theorem Stm.fresh_kids {frag : Nat} {s : Stm .cpp} {path : List Nat} {c c₁ : Context}
    (hf : (Code.stm frag s path).Fresh c) (h : s.head frag path c = .ok ((), c₁)) :
    s.kids.binders.Nodup ∧ ∀ lv ∈ s.kids.binders, c₁.vMap lv = none := by
  obtain ⟨hnodup, hnone⟩ := hf
  rw [Code.binders, Stm.binders_eq] at hnodup hnone
  obtain ⟨-, hkids, hdisj⟩ := List.nodup_append.mp hnodup
  refine ⟨hkids, fun lv hlv => ?_⟩
  have hnot : lv ∉ s.binds := fun hs => hdisj lv hs lv hlv rfl
  rw [Stm.head_binds h lv (.inr hnot)]
  exact hnone lv (List.mem_append_right _ hlv)

theorem Calls.fresh {code code' : Code} {c c' : Context} (h : Calls (code, c) (code', c'))
    (hf : code.Fresh c) : code'.Fresh c' := by
  cases h with
  | next hk h =>
      have hkids := Stm.fresh_kids hf h
      rwa [hk] at hkids
  | arms hk h =>
      have hkids := Stm.fresh_kids hf h
      rwa [hk] at hkids
  | arm =>
      obtain ⟨hnodup, hnone⟩ := hf
      exact ⟨(List.nodup_append.mp hnodup).1, fun lv hlv =>
        hnone lv (List.mem_append_left _ hlv)⟩
  | laterArm harm =>
      obtain ⟨hnodup, hnone⟩ := hf
      obtain ⟨-, hrest, hdisj⟩ := List.nodup_append.mp hnodup
      refine ⟨hrest, fun lv hlv => ?_⟩
      -- the arm that is done binds other variables
      rw [harm.vMap_eq rfl fun hk => hdisj lv hk lv hlv rfl]
      exact hnone lv (List.mem_append_right _ hlv)
  | @frag f fs i c c₁ hbb hstart =>
      have hunique := hf f List.mem_cons_self
      obtain ⟨-, hbody, hdisj⟩ := List.nodup_append.mp hunique
      exact ⟨hbody, fun lv hlv => fragStart_vMap hstart fun hp => hdisj lv hp lv hlv rfl⟩
  | laterFrag hbb hstart hbody => exact fun f hf' => hf f (List.mem_cons_of_mem _ hf')

/-- Wherever code generation comes to, the variables that are still to be bound have
no values. -/
theorem Visits.fresh {p q : Code × Context} (h : Visits p q) (hf : p.1.Fresh p.2) :
    q.1.Fresh q.2 :=
  h.invariant (I := Code.Fresh) (fun _ _ _ _ hcall => hcall.fresh) hf

/-- No variable of a statement has a value in a run for fragments that bind every
variable once. -/
theorem ClusterRun.fresh {cf : ClusterFn} {c C d₀ d : Context} {fs : List FragBB} {frag : Nat}
    {s : Stm .cpp} {path : List Nat} (hrun : ClusterRun cf c C fs d₀)
    (hunique : ∀ f ∈ cf.cluster.frags, f.UniqueBinds)
    (hv : Visits (.frags fs 0, d₀) (.stm frag s path, d)) : (Code.stm frag s path).Fresh d := by
  refine hv.fresh fun f hf => hunique f.frag ?_
  rw [← hrun.inits.frags]
  exact List.mem_map_of_mem hf

end SmlnjCfg.Codegen
