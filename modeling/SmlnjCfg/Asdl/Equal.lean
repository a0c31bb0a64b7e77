import SmlnjCfg.Asdl.Convert

/-!
# `SmlnjCfg.Asdl.Equal`: equality of integers

`operator==` compares signs and digits, so it agrees with the equality of the
numbers where a number has one representation. The theorem `eq_iff_val_eq_iff`
says for which two sources it does. The shortest representation is what the
fixed-width constructors and the documented encoding produce
(`eq_of_shortest`, `Source.shortest_of_canonical`); the default constructor and
encodings with more groups than the number needs do not.
-/

set_option autoImplicit false

namespace SmlnjCfg.Asdl

namespace Integer

/-- `operator==`: the sign, the number of digits, and the loop over the digits. -/
def eq (a b : Integer) : Bool :=
  if a.sign ≠ b.sign ∨ a.digits.length ≠ b.digits.length then false
  else (a.digits.zip b.digits).all fun d => d.1 == d.2

/-- `operator!=`: the same tests with the results exchanged. -/
def ne (a b : Integer) : Bool :=
  if a.sign ≠ b.sign ∨ a.digits.length ≠ b.digits.length then true
  else (a.digits.zip b.digits).any fun d => d.1 != d.2

end Integer

open Integer

/-! ### The comparison of representations -/

/-- Digits of one length that agree pairwise are the same. -/
theorem all_zip_iff {ds es : List (BitVec 32)} (h : ds.length = es.length) :
    ((ds.zip es).all fun d => d.1 == d.2) = true ↔ ds = es := by
  induction ds generalizing es with
  | nil =>
      cases es with
      | nil => simp
      | cons e es => cases h
  | cons d ds ih =>
      cases es with
      | nil => cases h
      | cons e es =>
          have hlen : ds.length = es.length := by simpa using h
          rw [List.zip_cons_cons, List.all_cons, Bool.and_eq_true, ih hlen, List.cons.injEq]
          simp

/-- `operator==` compares the representations. -/
theorem eq_iff (a b : Integer) : a.eq b = true ↔ a.sign = b.sign ∧ a.digits = b.digits := by
  rw [eq]
  by_cases h : a.sign ≠ b.sign ∨ a.digits.length ≠ b.digits.length
  · rw [if_pos h]
    refine iff_of_false Bool.false_ne_true ?_
    rintro ⟨hs, hd⟩
    cases h with
    | inl h => exact h hs
    | inr h => exact h (congrArg List.length hd)
  · rw [if_neg h]
    simp only [ne_eq, not_or, not_not] at h
    rw [all_zip_iff h.2]
    exact ⟨fun hd => ⟨h.1, hd⟩, fun hd => hd.2⟩

/-- `operator!=` is the negation of `operator==`. -/
theorem ne_eq_not_eq (a b : Integer) : a.ne b = !a.eq b := by
  rw [ne, eq]
  split
  · rfl
  · rw [List.not_all_eq_any_not]
    rfl

/-- Digits of one length with the same value are the same. -/
theorem digitsVal_injective {ds es : List (BitVec 32)} (hlen : ds.length = es.length)
    (h : digitsVal ds = digitsVal es) : ds = es := by
  induction ds generalizing es with
  | nil => exact (List.length_eq_zero_iff.mp hlen.symm).symm
  | cons d ds ih =>
      cases es with
      | nil => cases hlen
      | cons e es =>
          have hlen' : ds.length = es.length := by simpa using hlen
          rw [digitsVal_cons, digitsVal_cons, hlen'] at h
          have hds := digitsVal_lt ds
          have hes := digitsVal_lt es
          rw [hlen'] at hds
          -- The leading digit is the quotient by the weight of its position.
          have hpos := Nat.two_pow_pos (32 * es.length)
          generalize 2 ^ (32 * es.length) = p at *
          have hd : d.toNat = e.toNat := by
            have hq := congrArg (· / p) h
            simpa [Nat.mul_comm _ p, Nat.mul_add_div hpos, Nat.div_eq_of_lt hds,
              Nat.div_eq_of_lt hes] using hq
          rw [hd, Nat.add_left_cancel_iff] at h
          rw [BitVec.eq_of_toNat_eq hd, ih hlen' h]

/-! ### Equality of sources -/

/-- Two sources build equal integers exactly if they stand for one number, with
one sign bit and one number of digits. -/
theorem eq_build_iff {s t : Source} {a b : Integer} (ha : s.build = .ok a)
    (hb : t.build = .ok b) :
    a.eq b = true ↔ s.val = t.val ∧ s.sign = t.sign ∧ s.numDigits = t.numDigits := by
  obtain ⟨a', ha', haval, hasign, halen⟩ := s.build_spec
  obtain ⟨b', hb', hbval, hbsign, hblen⟩ := t.build_spec
  obtain rfl : a = a' := Except.ok.inj (ha.symm.trans ha')
  obtain rfl : b = b' := Except.ok.inj (hb.symm.trans hb')
  rw [eq_iff, ← haval, ← hbval, ← hasign, ← hbsign, ← halen, ← hblen]
  constructor
  · rintro ⟨hs, hd⟩
    refine ⟨?_, hs, congrArg List.length hd⟩
    rw [toInt, toInt, hs, hd]
  · rintro ⟨hval, hs, hlen⟩
    refine ⟨hs, digitsVal_injective hlen ?_⟩
    rw [digitsVal_eq_natAbs, digitsVal_eq_natAbs, hval]

/-- For any two sources, `operator==` decides the equality of the numbers exactly
if, where the numbers are equal, the sources agree in the sign bit and in the
number of digits they take. `operator!=` is its negation in any case. -/
theorem eq_iff_val_eq_iff (s t : Source) :
    ∃ a b, s.build = .ok a ∧ t.build = .ok b ∧ a.ne b = (!a.eq b) ∧
      ((a.eq b = true ↔ s.val = t.val) ↔
        (s.val = t.val → s.sign = t.sign ∧ s.numDigits = t.numDigits)) := by
  obtain ⟨a, ha, -⟩ := s.build_spec
  obtain ⟨b, hb, -⟩ := t.build_spec
  refine ⟨a, b, ha, hb, ne_eq_not_eq a b, ?_⟩
  rw [eq_build_iff ha hb]
  constructor
  · intro h hval
    exact (h.mpr hval).2
  · intro h
    exact ⟨fun hall => hall.1, fun hval => ⟨hval, h hval⟩⟩

/-- The default integer is zero, but not equal to zero: it has a digit. -/
theorem default_ne_zero :
    Source.default.val = (Source.int32 0).val ∧
      Source.default.build = .ok Integer.default ∧ (Source.int32 0).build = .ok (ofInt32 0) ∧
      Integer.default.eq (ofInt32 0) = false ∧
      ¬ ∀ s t : Source, ∃ a b, s.build = .ok a ∧ t.build = .ok b ∧
        (a.eq b = true ↔ s.val = t.val) := by
  refine ⟨rfl, rfl, rfl, by decide, fun h => ?_⟩
  obtain ⟨a, b, ha, hb, hiff⟩ := h .default (.int32 0)
  cases ha
  cases hb
  exact absurd (hiff.mpr rfl) (by decide)

/-! ### Shortest representations -/

/-- A source that has the sign of its number and the digits it needs. -/
def Source.Shortest (s : Source) : Prop :=
  s.sign = decide (s.val < 0) ∧ s.numDigits = (Nat.size s.val.natAbs + 31) / 32

/-- Between sources of shortest representations, `operator==` is the equality of
the numbers. -/
theorem eq_of_shortest {s t : Source} (hs : s.Shortest) (ht : t.Shortest) {a b : Integer}
    (ha : s.build = .ok a) (hb : t.build = .ok b) : a.eq b = true ↔ s.val = t.val := by
  rw [eq_build_iff ha hb]
  constructor
  · intro h
    exact h.1
  · intro hval
    refine ⟨hval, ?_, ?_⟩
    · rw [hs.1, ht.1, hval]
    · rw [hs.2, ht.2, hval]

/-- Canonical sources other than the default integer are shortest, but for a sign
bit on zero. -/
theorem Source.shortest_of_canonical {s : Source} (hdef : s ≠ .default) (hs : s.Canonical)
    (hz : s.val = 0 → s.sign = false) : s.Shortest := by
  cases s with
  | default => exact absurd rfl hdef
  | uint32 n => exact ⟨rfl, rfl⟩
  | int32 n => exact ⟨rfl, rfl⟩
  | uint64 n => exact ⟨rfl, rfl⟩
  | int64 n => exact ⟨rfl, rfl⟩
  | bytes b bs h =>
      have hsize : Nat.size (bytesVal b bs) = bs.length * 7 + firstBits (b &&& 0x3f) := by
        have hg := size_groupsVal_of_le (toNat_first_lt b) (toNat_groups_lt bs)
        rw [groupsVal_eq_sum, List.length_map] at hg
        exact hg (hs.imp (fun h0 => by rw [h0]; rfl) id)
      have hmag : (Source.bytes b bs h).val.natAbs = bytesVal b bs := by
        rw [val]
        split
        · omega
        · omega
      refine ⟨?_, ?_⟩
      · by_cases hb : b &&& 0x40 ≠ 0
        · have hneg : (Source.bytes b bs h).sign = true := by simpa [sign] using hb
          have hval : (Source.bytes b bs h).val ≠ 0 := fun h0 => by simp [hz h0] at hneg
          have hle : (Source.bytes b bs h).val = -bytesVal b bs := if_pos hb
          rw [hneg, eq_comm, decide_eq_true_eq]
          omega
        · have hpos : (Source.bytes b bs h).sign = false := by simpa [sign] using hb
          have hle : (Source.bytes b bs h).val = bytesVal b bs := if_neg hb
          rw [hpos, eq_comm, decide_eq_false_iff_not]
          omega
      · rw [hmag, hsize]
        rfl

end SmlnjCfg.Asdl
