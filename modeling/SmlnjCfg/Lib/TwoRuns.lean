import Mathlib.Control.Monad.Basic

/-!
# `SmlnjCfg.Lib.TwoRuns`: two runs of stateful code

Two computations that may fail are run from two states. If the states are related, do
they fail alike, or give the same result and related states? This shows what a
computation cannot depend on.

* `Alike`: two outcomes.
* `Same`: two computations, from all related states.
* `Same.bind`, `Same.get`, `Same.modify`: the rules.
-/

set_option autoImplicit false

namespace SmlnjCfg.TwoRuns

variable {σ ε α β : Type} {R S T : σ → σ → Prop}

/-- The same failure, or the same result in related states. The relation between the states may be
a different one from that between the states of the start. -/
inductive Alike (S : σ → σ → Prop) : Except ε (α × σ) → Except ε (α × σ) → Prop
  | ok {a : α} {s s' : σ} (h : S s s') : Alike S (.ok (a, s)) (.ok (a, s'))
  | error {e : ε} : Alike S (.error e) (.error e)

/-- From states that `R` relates, the outcomes are alike up to `S`. The two computations are
different ones in general, since they are continuations that got different views of the state. -/
def Same (R S : σ → σ → Prop) (x y : StateT σ (Except ε) α) : Prop :=
  ∀ s s', R s s' → Alike S (x s) (y s')

/-- A weaker relation holds between the same outcomes. -/
theorem Alike.mono {x y : Except ε (α × σ)} (h : Alike S x y) (hST : ∀ s s', S s s' → T s s') :
    Alike T x y := by
  cases h with
  | ok h => exact .ok (hST _ _ h)
  | error => exact .error

/-- A result of the first run is one of the second. -/
theorem Alike.exists_ok {x y : Except ε (α × σ)} {a : α} {s : σ} (h : Alike S x y)
    (hx : x = .ok (a, s)) : ∃ s', y = .ok (a, s') ∧ S s s' := by
  cases h with
  | ok h =>
      cases hx
      exact ⟨_, rfl, h⟩
  | error => cases hx

namespace Same

variable {x y : StateT σ (Except ε) α} {f g : α → StateT σ (Except ε) β}

/-- The rule of consequence, for both relations. -/
theorem mono {R' S' : σ → σ → Prop} (h : Same R S x y) (hR : ∀ s s', R' s s' → R s s')
    (hS : ∀ s s', S s s' → S' s s') : Same R' S' x y :=
  fun s s' hs => (h s s' (hR s s' hs)).mono hS

/-- The same result in the states as they are. -/
theorem pure (a : α) : Same R R (Pure.pure a : StateT σ (Except ε) α) (Pure.pure a) := fun _ _ h => .ok h

/-- A sequence: the relation that the first parts end with is the one that the second start with,
and the results of the first parts are the same. -/
theorem bind (hx : Same R S x y) (hf : ∀ a, Same S T (f a) (g a)) :
    Same R T (x >>= f) (y >>= g) := by
  intro s s' hs
  show Alike T (x s >>= fun p => f p.1 p.2) (y s' >>= fun p => g p.1 p.2)
  have hxy := hx s s' hs
  generalize x s = o at hxy ⊢
  generalize y s' = o' at hxy ⊢
  cases hxy with
  | ok h => exact hf _ _ _ h
  | error => exact .error

/-- What is read from the state may differ, so the continuations are compared for two states that
are related and not for two values that are equal. -/
theorem get {f g : σ → StateT σ (Except ε) β} (h : ∀ c c', R c c' → Same R S (f c) (g c')) :
    Same R S (MonadState.get >>= f) (MonadState.get >>= g) := fun s s' hs => h s s' hs s s' hs

/-- Two changes of the state that carry one relation to the other. -/
theorem modify {u v : σ → σ} (h : ∀ s s', R s s' → S (u s) (v s')) :
    Same R S (modify u : StateT σ (Except ε) PUnit) (modify v) := fun s s' hs => .ok (h s s' hs)

/-- Runs from one state are the same run. -/
theorem refl (x : StateT σ (Except ε) α) : Same Eq Eq x x := by
  rintro s _ rfl
  cases x s with
  | ok p => exact .ok rfl
  | error e => exact .error

end Same

end SmlnjCfg.TwoRuns
