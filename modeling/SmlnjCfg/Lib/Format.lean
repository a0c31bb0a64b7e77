import SmlnjCfg.Lib.Codec

/-!
# `SmlnjCfg.Lib.Format`: formats as data

A `Format` describes how the values of a type are laid out in a stream: basic
values, enumerations, counted sequences, and sums with a tag in front. The
recursive types are names, and a grammar has one rule for each. A `Scanner`
goes through a stream along a format and collects what it finds at the
enumerations, in the order of the stream. The results:

* `walk_seq`: a sequence is walked as its elements are read.
* `walk_map`: the walk is natural in what is collected.
* `Scanner.Guarded.scan`: where every rule begins with a tag, the walk of a
  name never goes deeper than the stream is long.
-/

set_option autoImplicit false

namespace SmlnjCfg

/-- The layout of a type: `B` are the basic types, `E` the enumerations and
`N` the names of the recursive types. -/
inductive Format (B E N : Type) where
  | empty
  | basic (b : B)
  | enum (e : E)
  | ref (n : N)
  | both (f g : Format B E N)
  | seq (f : Format B E N)
  | tagged (cases : Nat → Format B E N)
  | invalid (tag : Nat) (tyName : String)

/-- The fields of a record, one after the other. -/
def Format.fields {B E N : Type} : List (Format B E N) → Format B E N
  | [] => .empty
  | f :: fs => .both f (.fields fs)

/-- The decoders of the parts of a format. `F` is what is collected. -/
structure Scanner (σ ε B E N F : Type) where
  /-- Skip a basic value. -/
  basic : B → Decoder σ ε Unit
  /-- Read an enumeration. -/
  enum : E → Decoder σ ε F
  /-- The tag of a sum. -/
  tag : Decoder σ ε Nat
  /-- The length of a sequence. -/
  length : Decoder σ ε Nat
  /-- The error for a tag that is none of the sum's. -/
  invalid : Nat → String → ε
  /-- The error of a walk that is deeper than its fuel. -/
  deep : ε
  /-- The rules of the recursive types. -/
  rules : N → Format B E N

namespace Scanner

variable {σ ε B E N F G : Type} (S : Scanner σ ε B E N F)

/-- Go through a stream along a format, with a decoder for the names. -/
def walk (ref : N → Decoder σ ε (List F)) : Format B E N → Decoder σ ε (List F)
  | .empty => pure []
  | .basic b => (fun _ => []) <$> S.basic b
  | .enum e => (fun x => [x]) <$> S.enum e
  | .ref n => ref n
  | .both f g => do
      let xs ← walk ref f
      let ys ← walk ref g
      pure (xs ++ ys)
  | .seq f => do
      let len ← S.length
      let xss ← (walk ref f).times len
      pure xss.flatten
  | .tagged cases => do
      let tag ← S.tag
      walk ref (cases tag)
  | .invalid tag tyName => fun _ => .error (S.invalid tag tyName)

/-- Go through a stream along the rule of a name. -/
def scan : Nat → N → Decoder σ ε (List F)
  | 0, _ => fun _ => .error S.deep
  | fuel + 1, n => S.walk (scan fuel) (S.rules n)

/-- The scanner that collects the images under `φ`. -/
def map (φ : F → G) : Scanner σ ε B E N G :=
  { basic := S.basic, enum := fun e => φ <$> S.enum e, tag := S.tag, length := S.length,
    invalid := S.invalid, deep := S.deep, rules := S.rules }

/-! ### Counted loops -/

/-- A counted loop over an image. -/
theorem times_map {α β : Type} (φ : α → β) (d : Decoder σ ε α) (n : Nat) :
    (φ <$> d).times n = List.map φ <$> d.times n := by
  induction n with
  | zero => simp [Decoder.times]
  | succ n ih => simp [Decoder.times, ih]

/-- A sequence whose elements are read by `d`. -/
theorem walk_seq {α : Type} {ref : N → Decoder σ ε (List F)} {f : Format B E N}
    {d : Decoder σ ε α} {fields : α → List F} (h : S.walk ref f = fields <$> d) :
    S.walk ref (.seq f)
      = List.flatMap fields <$> (do let len ← S.length; d.times len) := by
  rw [walk, h]
  simp only [times_map, map_bind, bind_pure_comp, Functor.map_map]
  rfl

/-! ### Naturality -/

/-- Collecting images is collecting, and then taking the images. -/
theorem walk_map (φ : F → G) {ref : N → Decoder σ ε (List F)} {ref' : N → Decoder σ ε (List G)}
    (href : ∀ n, ref' n = List.map φ <$> ref n) (f : Format B E N) :
    (S.map φ).walk ref' f = List.map φ <$> S.walk ref f := by
  induction f with
  | empty => simp [walk]
  | basic b => simp [walk, map]
  | enum e => simp [walk, map]
  | ref n => exact href n
  | both f g ihf ihg => simp [walk, ihf, ihg]
  | seq f ih =>
      simp only [walk, ih, times_map]
      simp [map]
  | tagged cases ih =>
      simp only [walk, ih, map_bind]
      rfl
  | invalid tag tyName => rfl

/-- The same for the rules. -/
theorem scan_map (φ : F → G) (fuel : Nat) (n : N) :
    (S.map φ).scan fuel n = List.map φ <$> S.scan fuel n := by
  induction fuel generalizing n with
  | zero => rfl
  | succ fuel ih => exact S.walk_map φ ih (S.rules n)

end Scanner

/-! ### The depth of a walk -/

/-- In front of a stream of a size below `n`, the decoder does not report
`deep`, and what it leaves of the stream is not larger. -/
def Decoder.Shallow {σ ε α : Type} (size : σ → Nat) (deep : ε) (n : Nat)
    (d : Decoder σ ε α) : Prop :=
  ∀ s, size s < n → d.run s ≠ .error deep ∧ ∀ a s', d.run s = .ok (a, s') → size s' ≤ size s

namespace Decoder.Shallow

variable {σ ε α β : Type} {size : σ → Nat} {deep : ε} {n : Nat}

theorem pure (a : α) : Shallow size deep n (Pure.pure a : Decoder σ ε α) := by
  intro s hs
  constructor
  · intro h
    cases h
  · intro b s' h
    cases h
    exact Nat.le_refl _

theorem throw {e : ε} (h : e ≠ deep) :
    Shallow size deep n ((fun _ => .error e) : Decoder σ ε α) := by
  intro s hs
  constructor
  · intro he
    cases he
    exact h rfl
  · intro b s' he
    cases he

/-- What follows a shallow decoder starts in front of a stream that is not
larger. -/
theorem bind {d : Decoder σ ε α} {f : α → Decoder σ ε β} (hd : Shallow size deep n d)
    (hf : ∀ a, Shallow size deep n (f a)) : Shallow size deep n (d >>= f) := by
  intro s hs
  have hrun := hd s hs
  rw [StateT.run_bind]
  cases h : d.run s with
  | error e =>
      constructor
      · intro he
        cases he
        exact hrun.1 h
      · intro b s' he
        cases he
  | ok p =>
      have hle := hrun.2 p.1 p.2 h
      have hnext := hf p.1 p.2 (Nat.lt_of_le_of_lt hle hs)
      constructor
      · exact hnext.1
      · intro b s' hb
        exact Nat.le_trans (hnext.2 b s' hb) hle

theorem map {d : Decoder σ ε α} (f : α → β) (hd : Shallow size deep n d) :
    Shallow size deep n (f <$> d) := by
  rw [map_eq_pure_bind]
  exact hd.bind fun a => pure (f a)

theorem times {d : Decoder σ ε α} (hd : Shallow size deep n d) (k : Nat) :
    Shallow size deep n (d.times k) := by
  induction k with
  | zero => exact pure []
  | succ k ih => exact hd.bind fun a => ih.bind fun as => pure (a :: as)

end Decoder.Shallow

/-- What the decoder leaves of the stream is smaller. -/
def Decoder.Consumes {σ ε α : Type} (size : σ → Nat) (d : Decoder σ ε α) : Prop :=
  ∀ s a s', d.run s = .ok (a, s') → size s' < size s

namespace Decoder.Consumes

variable {σ ε α β : Type} {size : σ → Nat} {deep : ε}

/-- It is enough that the first of two decoders consumes something. -/
theorem bind {d : Decoder σ ε α} {f : α → Decoder σ ε β} (hd : d.Consumes size)
    (hf : ∀ a n, (f a).Shallow size deep n) : (d >>= f).Consumes size := by
  intro s b s' h
  rw [StateT.run_bind] at h
  cases hrun : d.run s with
  | error e =>
      rw [hrun] at h
      cases h
  | ok p =>
      rw [hrun] at h
      have hlt := hd s p.1 p.2 hrun
      have hle := (hf p.1 (size p.2 + 1) p.2 (Nat.lt_succ_self _)).2 b s' h
      omega

theorem map {d : Decoder σ ε α} (f : α → β) (hd : d.Consumes size) : (f <$> d).Consumes size := by
  intro s b s' h
  rw [StateT.run_map] at h
  cases hrun : d.run s with
  | error e =>
      rw [hrun] at h
      cases h
  | ok p =>
      rw [hrun] at h
      cases h
      exact hd s p.1 p.2 hrun

/-- What follows may have less fuel. -/
theorem bind_shallow {d : Decoder σ ε α} {f : α → Decoder σ ε β} {n : Nat}
    (hd : d.Consumes size) (hdeep : d.Shallow size deep (n + 1))
    (hf : ∀ a, (f a).Shallow size deep n) : (d >>= f).Shallow size deep (n + 1) := by
  intro s hs
  have hrun := hdeep s hs
  rw [StateT.run_bind]
  cases h : d.run s with
  | error e =>
      constructor
      · intro he
        cases he
        exact hrun.1 h
      · intro b s' he
        cases he
  | ok p =>
      have hlt := hd s p.1 p.2 h
      have hnext := hf p.1 p.2 (by omega)
      constructor
      · exact hnext.1
      · intro b s' hb
        exact Nat.le_trans (hnext.2 b s' hb) (Nat.le_of_lt hlt)

end Decoder.Consumes

namespace Scanner

variable {σ ε B E N F : Type}

/-- Every rule begins with a tag, and reading a tag makes the stream smaller. -/
structure Guarded (S : Scanner σ ε B E N F) (size : σ → Nat) : Prop where
  basic (b : B) (n : Nat) : (S.basic b).Shallow size S.deep n
  enum (e : E) (n : Nat) : (S.enum e).Shallow size S.deep n
  tag (n : Nat) : S.tag.Shallow size S.deep n
  length (n : Nat) : S.length.Shallow size S.deep n
  invalid (tag : Nat) (tyName : String) : S.invalid tag tyName ≠ S.deep
  consumes : S.tag.Consumes size
  rules (n : N) : ∃ cases, S.rules n = .tagged cases

namespace Guarded

variable {S : Scanner σ ε B E N F} {size : σ → Nat}

/-- A walk is as shallow as the decoder for the names. -/
theorem walk (hS : S.Guarded size) {ref : N → Decoder σ ε (List F)} {n : Nat}
    (href : ∀ x, (ref x).Shallow size S.deep n) (f : Format B E N) :
    (S.walk ref f).Shallow size S.deep n := by
  induction f with
  | empty => exact .pure []
  | basic b => exact (hS.basic b n).map _
  | enum e => exact (hS.enum e n).map _
  | ref x => exact href x
  | both f g ihf ihg => exact ihf.bind fun xs => ihg.bind fun ys => .pure (xs ++ ys)
  | seq f ih => exact (hS.length n).bind fun len => (ih.times len).bind fun xss => .pure _
  | tagged cases ih => exact (hS.tag n).bind fun tag => ih tag
  | invalid tag tyName => exact .throw (hS.invalid tag tyName)

/-- A fuel above the size of the stream is enough. -/
theorem scan (hS : S.Guarded size) (fuel : Nat) (x : N) :
    (S.scan fuel x).Shallow size S.deep fuel := by
  induction fuel generalizing x with
  | zero =>
      intro s hs
      omega
  | succ fuel ih =>
      have hrule := hS.rules x
      cases hrule with
      | intro cases hrule =>
          -- the tag is consumed, so the fuel that is left is enough for the rest
          rw [Scanner.scan, hrule, Scanner.walk]
          exact hS.consumes.bind_shallow (hS.tag _) fun t => hS.walk ih (cases t)

end Guarded

end Scanner

end SmlnjCfg
