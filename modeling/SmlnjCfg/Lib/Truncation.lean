import SmlnjCfg.Lib.Codec

/-!
# `SmlnjCfg.Lib.Truncation`: decoders in front of too few tokens

A stream may notice its end too late: asked for a token it does not have, it
makes one up, and only the next request fails. A `Supply` describes such a
stream by its state after the made-up token, and by the errors that report
the end. `Reads` adds to `Decodes` what a decoder does in front of a proper
prefix of its tokens: it reports the end, or it lacks one token only and
accepts the made-up one as its last. The rules:

* `Reads.bind_of`: sequencing, where the first decoder has a known result.
* `Reads.bind`, `Reads.bind_pure`, `Reads.times`: what follows from it.

All of them are about prefixes of fewer than `N` tokens, which lets a
decoder with fuel be used on them.
-/

set_option autoImplicit false

namespace SmlnjCfg

/-- A stream that may make up one token. Its states are those of the decoders; of these only the
ones in front of tokens and the one after the made-up token occur. -/
structure Supply (τ σ ε : Type) where
  /-- The stream in front of tokens. -/
  place : List τ → σ
  /-- The stream after the token it made up. -/
  dry : σ
  /-- The errors that report a missing or a wrong token. -/
  Reports : ε → Prop

namespace Supply

variable {τ σ ε α β : Type} (S : Supply τ σ ε)

/-- A decoder reports an error, and it is one that the end of the input or a wrong token
explains. -/
def Fails (d : Decoder σ ε α) (s : σ) : Prop := ∃ e, S.Reports e ∧ d.run s = .error e

/-- `d` reads the tokens `ts`. In front of a proper prefix of them it reports an error, but if
`last` holds and one token is missing, it returns with a dry stream. The last field is the only
one about prefixes; the others are what a rule for sequencing needs of its parts. -/
structure Reads (N : Nat) (d : Decoder σ ε α) (ts : List τ) (last : Bool) : Prop where
  nonempty : Nonempty α
  ne_nil : last = true → ts ≠ []
  decodes : ts.length < N → ∃ a, Decodes S.place d ts a
  cut : ∀ p, p <+: ts → p.length < ts.length → p.length < N →
    if last = true ∧ p.length + 1 = ts.length then ∃ a, d.run (S.place p) = .ok (a, S.dry)
    else S.Fails d (S.place p)

variable {S}

/-- A computation fails when its first step does. -/
theorem Fails.bind {d : Decoder σ ε α} {f : α → Decoder σ ε β} {s : σ} (h : S.Fails d s) :
    S.Fails (d >>= f) s := by
  obtain ⟨e, he, hrun⟩ := h
  refine ⟨e, he, ?_⟩
  rw [StateT.run_bind, hrun]
  rfl

/-- A computation fails when its second step does. -/
theorem Fails.of_bind {d : Decoder σ ε α} {f : α → Decoder σ ε β} {s s' : σ} {a : α}
    (hd : d.run s = .ok (a, s')) (h : S.Fails (f a) s') : S.Fails (d >>= f) s := by
  obtain ⟨e, he, hrun⟩ := h
  refine ⟨e, he, ?_⟩
  rw [StateT.run_bind, hd]
  exact hrun

namespace Reads

variable {N : Nat}

/-- Without fuel nothing is claimed of the decoder, since there are no prefixes of fewer than no
tokens. -/
theorem zero (d : Decoder σ ε α) (a : α) {ts : List τ} {last : Bool}
    (h : last = true → ts ≠ []) : S.Reads 0 d ts last :=
  ⟨⟨a⟩, h, fun hlt => absurd hlt (Nat.not_lt_zero _), fun _ _ _ hlt =>
    absurd hlt (Nat.not_lt_zero _)⟩

/-- A pure result reads nothing. -/
theorem pure (a : α) : S.Reads N (Pure.pure a : Decoder σ ε α) [] false :=
  ⟨⟨a⟩, nofun, fun _ => ⟨a, Decodes.pure a⟩, fun _ _ hlt => absurd hlt (Nat.not_lt_zero _)⟩

/-- What is claimed of longer prefixes holds of shorter ones. -/
theorem mono {M : Nat} {d : Decoder σ ε α} {ts : List τ} {last : Bool}
    (h : S.Reads M d ts last) (hle : N ≤ M) : S.Reads N d ts last :=
  ⟨h.nonempty, h.ne_nil, fun hlt => h.decodes (Nat.lt_of_lt_of_le hlt hle),
    fun p hp hlen hlt => h.cut p hp hlen (Nat.lt_of_lt_of_le hlt hle)⟩

/-- The step rule: what the first decoder returns in front of too few tokens makes the second one
fail. The second may be given shorter prefixes only, since the first has taken its tokens. -/
theorem bind_of {N' : Nat} {d : Decoder σ ε α} {f : α → Decoder σ ε β} {ts us : List τ}
    {last : Bool} {a : α} (hd : ts.length < N → Decodes S.place d ts a)
    (hshort : ∀ p, p <+: ts → p.length < ts.length → p.length < N →
      S.Fails d (S.place p) ∨
        ∃ a', d.run (S.place p) = .ok (a', S.dry) ∧ S.Fails (f a') S.dry)
    (hf : S.Reads N' (f a) us last) (hN : N ≤ ts.length + N') :
    S.Reads N (d >>= f) (ts ++ us) last where
  nonempty := hf.nonempty
  decodes hlt := by
    rw [List.length_append] at hlt
    obtain ⟨b, hb⟩ := hf.decodes (by omega)
    exact ⟨b, (hd (by omega)).bind hb⟩
  ne_nil h := List.append_ne_nil_of_right_ne_nil ts (hf.ne_nil h)
  cut p hp hlen hlt := by
    rw [List.length_append] at hlen ⊢
    by_cases hts : p.length < ts.length
    · have hpre : p <+: ts :=
        List.prefix_of_prefix_length_le hp (List.prefix_append ts us) (Nat.le_of_lt hts)
      have hfail : S.Fails (d >>= f) (S.place p) := by
        cases hshort p hpre hts hlt with
        | inl h => exact h.bind
        | inr h =>
            obtain ⟨a', hrun, hfa⟩ := h
            exact hfa.of_bind hrun
      rw [if_neg]
      · exact hfail
      · rintro ⟨hlast, hone⟩
        have hus := List.length_pos_iff.mpr (hf.ne_nil hlast)
        omega
    · obtain ⟨p', rfl⟩ : ts <+: p :=
        List.prefix_of_prefix_length_le (List.prefix_append ts us) hp (by omega)
      rw [List.length_append] at hlen hlt ⊢
      have hcut := hf.cut p' ((List.prefix_append_right_inj ts).mp hp) (by omega) (by omega)
      have hrun := hd (by omega) p'
      by_cases h : last = true ∧ p'.length + 1 = us.length
      · rw [if_pos h] at hcut
        rw [if_pos ⟨h.1, by omega⟩]
        obtain ⟨b, hb⟩ := hcut
        refine ⟨b, ?_⟩
        rw [StateT.run_bind, hrun]
        exact hb
      · rw [if_neg h] at hcut
        rw [if_neg fun hc => h ⟨hc.1, by omega⟩]
        exact hcut.of_bind hrun

/-- Sequencing, where the second decoder reads its tokens whatever the first
one returned, and fails on a dry stream. -/
theorem bind {d : Decoder σ ε α} {f : α → Decoder σ ε β} {ts us : List τ} {l last : Bool}
    (hd : S.Reads N d ts l) (hf : ∀ a, S.Reads N (f a) us last)
    (hdry : 0 < N → ∀ a, S.Fails (f a) S.dry) : S.Reads N (d >>= f) (ts ++ us) last := by
  obtain ⟨b⟩ := hd.nonempty
  have hus := (hf b).ne_nil
  have hshort : ∀ p, p <+: ts → p.length < ts.length → p.length < N →
      S.Fails d (S.place p) ∨
        ∃ a', d.run (S.place p) = .ok (a', S.dry) ∧ S.Fails (f a') S.dry := by
    intro p hp hlen hlt
    have hcut := hd.cut p hp hlen hlt
    split at hcut
    · obtain ⟨a', hrun⟩ := hcut
      exact .inr ⟨a', hrun, hdry (by omega) a'⟩
    · exact .inl hcut
  by_cases hts : ts.length < N
  · obtain ⟨a, ha⟩ := hd.decodes hts
    exact bind_of (fun _ => ha) hshort (hf a) (by omega)
  · -- The tokens of the first decoder alone are too many.
    refine bind_of (a := b) (fun hlt => absurd hlt hts) hshort (hf b) (by omega)

/-- A decoder followed by a pure result. -/
theorem bind_pure {d : Decoder σ ε α} {f : α → β} {ts : List τ} {last : Bool}
    (hd : S.Reads N d ts last) :
    S.Reads N (d >>= fun x => Pure.pure (f x)) ts last where
  nonempty := hd.nonempty.map f
  ne_nil := hd.ne_nil
  decodes hlt := by
    obtain ⟨a, ha⟩ := hd.decodes hlt
    exact ⟨f a, ha.bind_pure⟩
  cut p hp hlen hlt := by
    have hcut := hd.cut p hp hlen hlt
    by_cases h : last = true ∧ p.length + 1 = ts.length
    · rw [if_pos h] at hcut ⊢
      obtain ⟨a, hrun⟩ := hcut
      refine ⟨f a, ?_⟩
      rw [StateT.run_bind, hrun]
      rfl
    · rw [if_neg h] at hcut ⊢
      exact hcut.bind

/-- Whether the last of the elements ends in a token that may be made up. -/
def lastOf {ι : Type} (last : ι → Bool) (xs : List ι) : Bool := xs.getLast?.any last

/-- A counted loop reads the concatenation of the encodings, and ends as its last round does. -/
theorem times {ι : Type} {d : Decoder σ ε α} {enc : ι → List τ} {last : ι → Bool}
    (hdry : 0 < N → S.Fails d S.dry) {xs : List ι}
    (h : ∀ x ∈ xs, S.Reads N d (enc x) (last x)) :
    S.Reads N (d.times xs.length) (xs.flatMap enc) (lastOf last xs) := by
  induction xs with
  | nil => exact Reads.pure []
  | cons x xs ih =>
      have hx := h x List.mem_cons_self
      have hxs := ih fun y hy => h y (List.mem_cons_of_mem x hy)
      cases xs with
      | nil =>
          rw [List.flatMap_singleton]
          exact hx.bind_pure
      | cons y ys =>
          have hlast : lastOf last (x :: y :: ys) = lastOf last (y :: ys) := by
            rw [lastOf, lastOf, List.getLast?_cons_cons]
          rw [hlast, List.flatMap_cons]
          exact hx.bind (fun a => hxs.bind_pure) fun hN a => (hdry hN).bind.bind

end Reads

end Supply

end SmlnjCfg
