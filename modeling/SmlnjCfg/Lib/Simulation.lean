import Mathlib.Logic.Relation

/-!
# `SmlnjCfg.Lib.Simulation`: simulations between machines

A machine is a partial step function. A simulation follows every step of one machine
by any number of steps of the other. If it makes no step for one of the first
machine, then a measure of the first machine goes down, so that a run that goes on
forever is followed by one that does.

* `Star`: any number of steps. Two runs from one state are comparable.
* `Simulates.star`: a run is followed by a run.
* `Simulates.only`: the second machine has no other way to go.
* `Simulates.forever`: a run that goes on forever.
-/

set_option autoImplicit false

namespace SmlnjCfg.Simulation

open Relation

variable {α β : Type} {step : α → Option α} {a a' a'' : α}

/-! ### Runs -/

/-- Any number of steps, none included. -/
def Star (step : α → Option α) : α → α → Prop := ReflTransGen fun a a' => step a = some a'

/-- At least one step. This is the case of a simulation that needs no measure. -/
def Plus (step : α → Option α) (a a'' : α) : Prop := ∃ a', step a = some a' ∧ Star step a' a''

/-- The machine never stops: it can make a step wherever it comes. -/
def Forever (step : α → Option α) (a : α) : Prop := ∀ a', Star step a a' → (step a').isSome

/-- At least one step is a number of steps. -/
theorem Plus.star (h : Plus step a a'') : Star step a a'' := by
  obtain ⟨a', hstep, hstar⟩ := h
  exact .head hstep hstar

/-- Steps in front keep it at least one. -/
theorem Plus.of_star (h : Star step a a') (h' : Plus step a' a'') : Plus step a a'' := by
  cases ReflTransGen.cases_head h with
  | inl heq => exact heq ▸ h'
  | inr hstep =>
      obtain ⟨b, hb, hrest⟩ := hstep
      exact ⟨b, hb, hrest.trans h'.star⟩

/-- A machine that has stopped stays where it is, so a run from there is empty. -/
theorem Star.eq_of_stuck (h : Star step a a') (hstuck : step a = none) : a' = a := by
  cases ReflTransGen.cases_head h with
  | inl heq => exact heq.symm
  | inr hstep =>
      obtain ⟨b, hb, -⟩ := hstep
      rw [hstuck] at hb
      cases hb

/-- Of two runs from one state, one goes on where the other ended. The machine is a function of
its state, so the runs can only differ in their lengths. -/
theorem Star.comparable (h : Star step a a') (h' : Star step a a'') :
    Star step a' a'' ∨ Star step a'' a' := by
  induction h using ReflTransGen.head_induction_on with
  | refl => exact .inl h'
  | head hstep hrest ih =>
      cases ReflTransGen.cases_head h' with
      | inl heq => exact .inr (heq ▸ .head hstep hrest)
      | inr hother =>
          obtain ⟨b, hb, hrest'⟩ := hother
          rw [hstep] at hb
          cases hb
          exact ih hrest'

/-- All runs lead to the state where the machine stops. -/
theorem Star.of_stuck (h : Star step a a') (hstuck : step a' = none) (h' : Star step a a'') :
    Star step a'' a' := by
  cases h.comparable h' with
  | inl hstar => exact hstar.eq_of_stuck hstuck ▸ .refl
  | inr hstar => exact hstar

/-- A machine that never stops does not stop later on, either. -/
theorem Forever.star (h : Forever step a) (hstar : Star step a a') : Forever step a' :=
  fun _ h' => h _ (hstar.trans h')

/-- From a state from which the machine stops there is no infinite descent, which is what an
induction over the steps to come needs. -/
theorem Star.acc (h : Star step a a') (hstuck : step a' = none) :
    Acc (fun x y => step y = some x) a := by
  induction h using ReflTransGen.head_induction_on with
  | refl =>
      refine ⟨_, fun b hb => ?_⟩
      rw [hstuck] at hb
      cases hb
  | head hstep _ ih =>
      refine ⟨_, fun b hb => ?_⟩
      rw [hstep] at hb
      cases hb
      exact ih

/-- Steps are steps of the transitive closure. -/
theorem Plus.transGen (h : Plus step a a') : TransGen (fun x y => step y = some x) a' a := by
  obtain ⟨b, hb, hstar⟩ := h
  induction hstar with
  | refl => exact .single hb
  | tail _ hstep ih => exact .head hstep ih

/-! ### Simulations -/

variable {stepA : α → Option α} {stepB : β → Option β} {R : α → β → Prop} {size : α → Nat}

/-- A machine inside another one: a run of it is a run of the other, state by state. -/
theorem Star.lift {f : α → β} (hf : ∀ a a', stepA a = some a' → stepB (f a) = some (f a'))
    (h : Star stepA a a') : Star stepB (f a) (f a') := by
  induction h with
  | refl => exact .refl
  | tail _ hstep ih => exact ih.tail (hf _ _ hstep)

/-- The same for at least one step. -/
theorem Plus.lift {f : α → β} (hf : ∀ a a', stepA a = some a' → stepB (f a) = some (f a'))
    (h : Plus stepA a a') : Plus stepB (f a) (f a') := by
  obtain ⟨b, hb, hstar⟩ := h
  exact ⟨f b, hf _ _ hb, hstar.lift hf⟩

/-- The second machine follows the first one, and it makes a step unless `size` goes
down. -/
structure Simulates (stepA : α → Option α) (stepB : β → Option β) (R : α → β → Prop)
    (size : α → Nat) : Prop where
  step : ∀ {a a' b}, R a b → stepA a = some a' →
    ∃ b', R a' b' ∧ (Plus stepB b b' ∨ Star stepB b b' ∧ size a' < size a)

namespace Simulates

variable {b b' : β}

/-- A run is followed by a run, by induction on its steps. -/
theorem star (h : Simulates stepA stepB R size) (hrun : Star stepA a a') (hR : R a b) :
    ∃ b', Star stepB b b' ∧ R a' b' := by
  induction hrun with
  | refl => exact ⟨b, .refl, hR⟩
  | tail _ hstep ih =>
      obtain ⟨b₁, hstar, hR₁⟩ := ih
      obtain ⟨b₂, hR₂, hmove⟩ := h.step hR₁ hstep
      refine ⟨b₂, hstar.trans ?_, hR₂⟩
      rcases hmove with hplus | ⟨hstar', -⟩
      · exact hplus.star
      · exact hstar'

/-- If the first machine comes to a state whose counterparts have no step, then the
second machine comes to a counterpart, whatever it did before. -/
theorem only (h : Simulates stepA stepB R size) (hrun : Star stepA a a') (hR : R a b)
    (hstuck : ∀ b, R a' b → stepB b = none) :
    ∃ b', R a' b' ∧ ∀ b₁, Star stepB b b₁ → Star stepB b₁ b' := by
  obtain ⟨b', hstar, hR'⟩ := h.star hrun hR
  exact ⟨b', hR', fun b₁ h₁ => hstar.of_stuck (hstuck b' hR') h₁⟩

/-- A machine that goes on forever is not followed by one that stops. The induction is on the
steps of the second machine, and where it makes none the measure of the first one goes down. -/
theorem not_forever_of_acc (h : Simulates stepA stepB R size)
    (hacc : Acc (TransGen fun x y => stepB y = some x) b) : ∀ a, R a b → ¬ Forever stepA a := by
  -- the steps of the second machine, and then the measure
  induction hacc with
  | intro b _ ih =>
      intro a hR ha
      induction hn : size a using Nat.strongRecOn generalizing a with
      | ind n ihn =>
          obtain ⟨a', hstep⟩ := Option.isSome_iff_exists.mp (ha a .refl)
          obtain ⟨b₁, hR₁, hmove⟩ := h.step hR hstep
          have ha' := ha.star (.single hstep)
          rcases hmove with hplus | ⟨hstar, hlt⟩
          · exact ih b₁ hplus.transGen a' hR₁ ha'
          · cases ReflTransGen.cases_head hstar with
            | inl heq => exact ihn _ (hn ▸ hlt) a' (heq ▸ hR₁) ha' rfl
            | inr hb =>
                obtain ⟨b₂, hb₂, hrest⟩ := hb
                exact ih b₁ (Plus.transGen ⟨b₂, hb₂, hrest⟩) a' hR₁ ha'

/-- If the first machine goes on forever, so does the second one: it would have to stop otherwise,
and then the descent above were infinite. -/
theorem forever (h : Simulates stepA stepB R size) (ha : Forever stepA a) (hR : R a b) :
    Forever stepB b := by
  intro b' hstar
  cases hstep : stepB b' with
  | some b₁ => rfl
  | none => exact absurd ha (h.not_forever_of_acc (hstar.acc hstep).transGen a hR)

end Simulates

end SmlnjCfg.Simulation
