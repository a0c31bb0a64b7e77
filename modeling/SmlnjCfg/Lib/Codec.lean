import Mathlib.Data.List.Basic

/-!
# `SmlnjCfg.Lib.Codec`: decoders that read back what was written

A decoder over a stream type `σ` is a state monad with errors. A client
says with a function `place : List τ → σ` which stream stands in front of
a list of tokens; `Decodes place d ts a` then says that `d`, placed in
front of `ts` and anything after it, returns `a` and stops exactly at the
end of `ts`. The rules:

* `Decodes.pure`, `Decodes.bind`, `Decodes.bind_pure`: the monad.
* `Decodes.times`, `Decodes.sequence`: a counted loop, and a run of different
  decoders, read a concatenation.
* `Decodes.unique`, `Decodes.split`: a decoder reads one value from given
  tokens, and nothing that it reads is the beginning of something else.

The trailing tokens are quantified in `Decodes`, which is what lets two
decoders be run one after the other without looking inside either.
-/

set_option autoImplicit false

namespace SmlnjCfg

/-- A decoder: a state monad over the stream `σ` with errors `ε`. -/
abbrev Decoder (σ ε : Type) : Type → Type := StateT σ (Except ε)

namespace Decoder

variable {σ ε α : Type}

/-- Run a decoder `n` times and collect the results in order. -/
def times (d : Decoder σ ε α) : Nat → Decoder σ ε (List α)
  | 0 => pure []
  | n + 1 => do
      let a ← d
      let as ← times d n
      pure (a :: as)

/-- Run the decoders one after the other and collect the results in order. -/
def sequence : List (Decoder σ ε α) → Decoder σ ε (List α)
  | [] => pure []
  | d :: ds => do
      let a ← d
      let as ← sequence ds
      pure (a :: as)

/-- A decoder that looks at the stream first. -/
theorem run_get_bind (f : σ → Decoder σ ε α) (s : σ) : (get >>= f).run s = (f s).run s := rfl

/-- A sequence returns where both parts do, the second from where the first one stopped. -/
theorem run_bind_ok {β : Type} {d : Decoder σ ε α} {f : α → Decoder σ ε β} {s s' : σ} {b : β} :
    (d >>= f).run s = .ok (b, s') ↔
      ∃ a s₁, d.run s = .ok (a, s₁) ∧ (f a).run s₁ = .ok (b, s') := by
  rw [StateT.run_bind]
  cases hd : d.run s with
  | error e =>
      constructor
      · intro h
        cases h
      · rintro ⟨a, s₁, ⟨⟩, -⟩
  | ok r =>
      constructor
      · intro h
        exact ⟨r.1, r.2, rfl, h⟩
      · rintro ⟨a, s₁, hr, h⟩
        cases hr
        exact h

end Decoder

/-- Placed in front of `ts` and any further tokens, `d` returns `a` and
leaves exactly the further tokens. -/
def Decodes {τ σ ε α : Type} (place : List τ → σ) (d : Decoder σ ε α) (ts : List τ)
    (a : α) : Prop :=
  ∀ tl : List τ, d.run (place (ts ++ tl)) = .ok (a, place tl)

namespace Decodes

variable {τ σ ε α β : Type} {place : List τ → σ}

/-- A pure result reads nothing. -/
theorem pure (a : α) : Decodes place (Pure.pure a : Decoder σ ε α) [] a := fun _ => rfl

/-- Sequencing reads one encoding after the other. -/
theorem bind {d : Decoder σ ε α} {f : α → Decoder σ ε β} {ts us : List τ} {a : α} {b : β}
    (hd : Decodes place d ts a) (hf : Decodes place (f a) us b) :
    Decodes place (d >>= f) (ts ++ us) b := fun tl => by
  rw [StateT.run_bind, List.append_assoc, hd]
  exact hf tl

/-- `bind` where the first decoder reads a single token. -/
theorem cons {d : Decoder σ ε α} {f : α → Decoder σ ε β} {t : τ} {us : List τ} {a : α}
    {b : β} (hd : Decodes place d [t] a) (hf : Decodes place (f a) us b) :
    Decodes place (d >>= f) (t :: us) b :=
  hd.bind hf

/-- A decoder followed by a pure result reads its own encoding. -/
theorem bind_pure {d : Decoder σ ε α} {f : α → β} {ts : List τ} {a : α}
    (hd : Decodes place d ts a) :
    Decodes place (d >>= fun x => Pure.pure (f x)) ts (f a) := fun tl => by
  rw [StateT.run_bind, hd]
  rfl

/-- A decoder may look at the whole stream first. -/
theorem get_bind {f : σ → Decoder σ ε α} {ts : List τ} {a : α}
    (h : ∀ tl, (f (place (ts ++ tl))).run (place (ts ++ tl)) = .ok (a, place tl)) :
    Decodes place (get >>= f) ts a := h

/-- A counted loop reads the concatenation of the encodings. -/
theorem times {ι : Type} {d : Decoder σ ε α} {enc : ι → List τ} {val : ι → α} :
    {xs : List ι} → (∀ x ∈ xs, Decodes place d (enc x) (val x)) →
      Decodes place (d.times xs.length) (xs.flatMap enc) (xs.map val)
  | [], _ => Decodes.pure []
  | x :: xs, h => by
      have hx := h x List.mem_cons_self
      have hxs := times fun y hy => h y (List.mem_cons_of_mem x hy)
      exact hx.bind (bind_pure hxs)

/-- A run of decoders reads the concatenation of their encodings. -/
theorem sequence {ι : Type} {d : ι → Decoder σ ε α} {enc : ι → List τ} {val : ι → α} :
    {xs : List ι} → (∀ x ∈ xs, Decodes place (d x) (enc x) (val x)) →
      Decodes place (Decoder.sequence (xs.map d)) (xs.flatMap enc) (xs.map val)
  | [], _ => Decodes.pure []
  | x :: xs, h => by
      have hx := h x List.mem_cons_self
      have hxs := sequence fun y hy => h y (List.mem_cons_of_mem x hy)
      exact hx.bind (bind_pure hxs)

/-- The tokens determine the value. -/
theorem unique {d : Decoder σ ε α} {ts : List τ} {a b : α} (ha : Decodes place d ts a)
    (hb : Decodes place d ts b) : a = b := by
  have h := (ha []).symm.trans (hb [])
  simp only [Except.ok.injEq, Prod.mk.injEq] at h
  exact h.1

/-- Tokens that begin with two encodings begin with one: the values agree, and
so does what follows. -/
theorem split (hplace : Function.Injective place) {d : Decoder σ ε α} {ts us tl vl : List τ}
    {a b : α} (ha : Decodes place d ts a) (hb : Decodes place d us b)
    (h : ts ++ tl = us ++ vl) : a = b ∧ tl = vl := by
  have hrun := ha tl
  rw [h, hb vl] at hrun
  simp only [Except.ok.injEq, Prod.mk.injEq] at hrun
  exact ⟨hrun.1.symm, (hplace hrun.2).symm⟩

end Decodes

end SmlnjCfg
