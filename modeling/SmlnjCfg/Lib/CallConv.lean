import Mathlib.Data.List.Nodup

/-!
# `SmlnjCfg.Lib.CallConv`: calling conventions as lists of rules

A calling convention is a list of rules that are tried in order for each
argument: a rule may replace the argument's type, or hand out the first
register of a list that is still free. A register is free when no register
that overlaps it has been handed out; `unit` says which registers overlap,
by giving them the same unit. The theorems are about conventions in which
each type draws on one bank of registers:

* `find?_free_eq`: if the units of a list are distinct and the first `k` of
  them are taken, the next free register is the `k`-th.
* `assign_eq`: the register of an argument is given by its position among
  the arguments of its bank, whatever the other banks do.
* `assign_unit_ne`: different arguments get registers that do not overlap.
-/

set_option autoImplicit false

namespace SmlnjCfg.CallConv

variable {VT Reg U : Type} [DecidableEq VT] [DecidableEq U]

/-- A rule. Promotion and bit conversion replace the type and go on with the
next rule; an assignment lists registers, each with its shadows. -/
inductive Rule (VT Reg : Type) where
  | convert (tys : List VT) (ty : VT)
  | assign (tys : List VT) (regs : List (Reg × List Reg))

/-- An assignment without shadows. -/
def assignToReg (tys : List VT) (regs : List Reg) : Rule VT Reg :=
  .assign tys (regs.map fun r => (r, []))

/-- An assignment where the `i`-th register shadows the `i`-th of a second list. -/
def assignToRegWithShadow (tys : List VT) (regs shadows : List Reg) : Rule VT Reg :=
  .assign tys (regs.zip (shadows.map fun s => [s]))

/-- A register is free when nothing that overlaps it is taken. -/
def isFree (unit : Reg → U) (taken : List Reg) (r : Reg) : Bool :=
  !(taken.map unit).contains (unit r)

/-- Hand out a register with its shadows, if there is one. -/
def handOut (taken : List Reg) : Option (Reg × List Reg) → Option Reg × List Reg
  | some (r, shadows) => (some r, r :: shadows ++ taken)
  | none => (none, taken)

/-- Try the rules in order for one argument: the register, if any, and the
registers taken afterwards. -/
def tryRules (unit : Reg → U) : List (Rule VT Reg) → VT → List Reg →
    Option Reg × List Reg
  | [], _, taken => (none, taken)
  | .convert tys ty :: rules, vt, taken =>
      tryRules unit rules (if vt ∈ tys then ty else vt) taken
  | .assign tys regs :: rules, vt, taken =>
      if vt ∈ tys then
        match regs.find? fun p => isFree unit taken p.1 with
        | some p => handOut taken (some p)
        | none => tryRules unit rules vt taken
      else tryRules unit rules vt taken

theorem tryRules_convert (unit : Reg → U) (tys : List VT) (ty : VT)
    (rules : List (Rule VT Reg)) (vt : VT) (taken : List Reg) :
    tryRules unit (.convert tys ty :: rules) vt taken
      = tryRules unit rules (if vt ∈ tys then ty else vt) taken := rfl

/-- The last rule for a type. -/
theorem tryRules_assign_of_mem {unit : Reg → U} {tys : List VT} {regs : List (Reg × List Reg)}
    {rules : List (Rule VT Reg)} {vt : VT} {taken : List Reg} (h : vt ∈ tys)
    (hlast : tryRules unit rules vt taken = (none, taken)) :
    tryRules unit (.assign tys regs :: rules) vt taken =
      handOut taken (regs.find? fun p => isFree unit taken p.1) := by
  rw [tryRules, if_pos h, hlast]
  cases regs.find? fun p => isFree unit taken p.1 <;> rfl

/-- A rule for other types. -/
theorem tryRules_assign_of_not_mem {unit : Reg → U} {tys : List VT}
    {regs : List (Reg × List Reg)} {rules : List (Rule VT Reg)} {vt : VT} {taken : List Reg}
    (h : vt ∉ tys) : tryRules unit (.assign tys regs :: rules) vt taken
      = tryRules unit rules vt taken := by
  rw [tryRules, if_neg h]

/-- Assign the arguments from left to right. -/
def assign (unit : Reg → U) (rules : List (Rule VT Reg)) : List VT → List Reg →
    List (Option Reg)
  | [], _ => []
  | vt :: vts, taken =>
      let (r, taken) := tryRules unit rules vt taken
      r :: assign unit rules vts taken

theorem length_assign (unit : Reg → U) (rules : List (Rule VT Reg)) (vts : List VT)
    (taken : List Reg) : (assign unit rules vts taken).length = vts.length := by
  induction vts generalizing taken with
  | nil => rfl
  | cons vt vts ih => exact congrArg (· + 1) (ih _)

/-! ### Conventions with banks -/

omit [DecidableEq VT] [DecidableEq U] in
/-- In a list of registers with distinct units, of which exactly the first `k`
are not free, the first free register is the `k`-th. -/
theorem find?_free_eq {α : Type} (unit : α → U) (free : α → Bool) {xs : List α} (k : Nat)
    (hnodup : (xs.map unit).Nodup)
    (hfree : ∀ x ∈ xs, free x = true ↔ unit x ∉ (xs.map unit).take k) :
    xs.find? free = xs[k]? := by
  induction xs generalizing k with
  | nil => rfl
  | cons x xs ih =>
      rw [List.map_cons, List.nodup_cons] at hnodup
      cases k with
      | zero =>
          have hx : free x = true := by rw [hfree x List.mem_cons_self]; simp
          rw [List.find?_cons_of_pos hx]
          rfl
      | succ k =>
          have hx : ¬ free x = true := by
            rw [hfree x List.mem_cons_self]
            simp
          rw [List.find?_cons_of_neg hx, List.getElem?_cons_succ]
          refine ih k hnodup.2 fun y hy => ?_
          have hne : unit y ≠ unit x := fun he =>
            hnodup.1 (he ▸ List.mem_map_of_mem hy)
          rw [hfree y (List.mem_cons_of_mem x hy), List.map_cons, List.take_succ_cons,
            List.mem_cons, not_or]
          exact and_iff_right hne

/-- What makes a convention one of banks: a type `vt` is assigned from the
list `regs vt`, whose units are those of the bank of `vt`; shadows overlap
their registers, and banks do not overlap. -/
structure Banked {B : Type} (unit : Reg → U) (rules : List (Rule VT Reg)) (bank : VT → B)
    (regs : VT → List (Reg × List Reg)) (units : B → List U) : Prop where
  /-- The rules assign a type from its own list. -/
  tryRules_eq : ∀ vt taken, tryRules unit rules vt taken =
    handOut taken ((regs vt).find? fun p => isFree unit taken p.1)
  units_eq : ∀ vt, (regs vt).map (fun p => unit p.1) = units (bank vt)
  shadows_eq : ∀ vt, ∀ p ∈ regs vt, ∀ s ∈ p.2, unit s = unit p.1
  nodup_units : ∀ b, (units b).Nodup
  disjoint_units : ∀ b b', b ≠ b' → ∀ u ∈ units b, u ∉ units b'

variable {B : Type} [DecidableEq B]

/-- The registers taken are the first `cnt b` of each bank. -/
def TakenOf (unit : Reg → U) (units : B → List U) (cnt : B → Nat) (taken : List Reg) : Prop :=
  ∀ u, u ∈ taken.map unit ↔ ∃ b, u ∈ (units b).take (cnt b)

variable {unit : Reg → U} {rules : List (Rule VT Reg)} {bank : VT → B}
  {regs : VT → List (Reg × List Reg)} {units : B → List U}

/-- One argument takes the next register of its bank, if there is one. -/
theorem tryRules_banked (h : Banked unit rules bank regs units) {cnt : B → Nat}
    {taken : List Reg} (ht : TakenOf unit units cnt taken) (vt : VT) :
    (tryRules unit rules vt taken).1 = ((regs vt)[cnt (bank vt)]?).map Prod.fst ∧
      TakenOf unit units (fun b => if b = bank vt then cnt b + 1 else cnt b)
        (tryRules unit rules vt taken).2 := by
  have hfind : (regs vt).find? (fun p => isFree unit taken p.1) = (regs vt)[cnt (bank vt)]? := by
    refine find?_free_eq (fun p => unit p.1) _ _ (h.units_eq vt ▸ h.nodup_units _) ?_
    intro p hp
    have hmem : unit p.1 ∈ units (bank vt) := by
      rw [← h.units_eq vt]
      exact List.mem_map_of_mem (f := fun p : Reg × List Reg => unit p.1) hp
    have hiff : unit p.1 ∈ taken.map unit ↔ unit p.1 ∈ (units (bank vt)).take (cnt (bank vt)) := by
      rw [ht]
      refine ⟨fun ⟨b, hb⟩ => ?_, fun hb => ⟨_, hb⟩⟩
      by_cases hbb : b = bank vt
      · exact hbb ▸ hb
      · exact absurd hmem (h.disjoint_units b _ hbb _ (List.mem_of_mem_take hb))
    rw [h.units_eq vt, isFree, Bool.not_eq_true', ← hiff]
    simp
  rw [h.tryRules_eq, hfind]
  cases hget : (regs vt)[cnt (bank vt)]? with
  | none =>
      refine ⟨rfl, fun u => ?_⟩
      -- The bank is used up, so its first `cnt` units are all of its units.
      have hlen : (units (bank vt)).length ≤ cnt (bank vt) := by
        rw [← h.units_eq vt, List.length_map]
        exact List.getElem?_eq_none_iff.mp hget
      have hstep : ∀ b, (units b).take (if b = bank vt then cnt b + 1 else cnt b)
          = (units b).take (cnt b) := by
        intro b
        split
        next hb => rw [hb, List.take_of_length_le hlen, List.take_of_length_le (by omega)]
        next => rfl
      show u ∈ taken.map unit ↔ _
      rw [ht u]
      exact exists_congr fun b => by rw [hstep]
  | some p =>
      refine ⟨rfl, fun u => ?_⟩
      obtain ⟨hlt, hp⟩ := List.getElem?_eq_some_iff.mp hget
      have hpmem : p ∈ regs vt := List.mem_of_getElem? hget
      have hunit : (units (bank vt))[cnt (bank vt)]? = some (unit p.1) := by
        rw [← h.units_eq vt, List.getElem?_map, hget]
        rfl
      have hmarks : u ∈ (p.1 :: p.2 ++ taken).map unit ↔ u = unit p.1 ∨ u ∈ taken.map unit := by
        rw [List.map_append, List.mem_append, List.map_cons, List.mem_cons, List.mem_map]
        constructor
        · rintro ((hu | ⟨s, hs, rfl⟩) | hu)
          · exact .inl hu
          · exact .inl (h.shadows_eq vt p hpmem s hs)
          · exact .inr hu
        · rintro (hu | hu)
          · exact .inl (.inl hu)
          · exact .inr hu
      show u ∈ (p.1 :: p.2 ++ taken).map unit ↔ _
      rw [hmarks, ht u]
      constructor
      · rintro (rfl | ⟨b, hb⟩)
        · refine ⟨bank vt, ?_⟩
          beta_reduce
          rw [if_pos rfl, List.take_add_one, hunit]
          simp
        · refine ⟨b, ?_⟩
          beta_reduce
          split
          next => exact (List.take_subset_take_left _ (Nat.le_succ _)) hb
          next => exact hb
      · rintro ⟨b, hb⟩
        beta_reduce at hb
        by_cases hbb : b = bank vt
        · rw [if_pos hbb, List.take_add_one, hbb, hunit] at hb
          simp only [Option.toList_some, List.mem_append, List.mem_singleton] at hb
          exact hb.elim (fun hb => .inr ⟨_, hb⟩) .inl
        · rw [if_neg hbb] at hb
          exact .inr ⟨b, hb⟩

/-- The register of the `i`-th argument is the one at its position among the
arguments of its bank. -/
theorem assign_eq (h : Banked unit rules bank regs units) {cnt : B → Nat} {taken : List Reg}
    (ht : TakenOf unit units cnt taken) (vts : List VT) (i : Nat) :
    (assign unit rules vts taken)[i]? = vts[i]?.map fun vt =>
      ((regs vt)[cnt (bank vt) + (vts.take i).countP fun v => bank v = bank vt]?).map
        Prod.fst := by
  induction vts generalizing cnt taken i with
  | nil => rfl
  | cons vt vts ih =>
      obtain ⟨hreg, ht'⟩ := tryRules_banked h ht vt
      cases i with
      | zero => rw [assign, List.getElem?_cons_zero, hreg]; rfl
      | succ i =>
          rw [assign, List.getElem?_cons_succ, ih ht', List.getElem?_cons_succ]
          refine congrArg (vts[i]?.map ·) (funext fun w => ?_)
          rw [List.take_succ_cons, List.countP_cons]
          by_cases hb : bank vt = bank w
          · rw [if_pos hb.symm, if_pos (decide_eq_true hb)]
            rw [show cnt (bank w) + 1 + (vts.take i).countP (fun v => bank v = bank w)
              = cnt (bank w) + ((vts.take i).countP (fun v => bank v = bank w) + 1) by omega]
          · rw [if_neg fun he => hb he.symm, if_neg (by simpa using hb), Nat.add_zero]

/-- An element that counts is counted by every longer prefix. -/
theorem countP_take_lt {α : Type} (p : α → Bool) {xs : List α} {i j : Nat} {x : α}
    (hx : xs[i]? = some x) (hp : p x = true) (hij : i < j) :
    (xs.take i).countP p < (xs.take j).countP p := by
  have hsub : (xs.take (i + 1)).Sublist (xs.take j) := List.take_sublist_take_left hij
  have hstep : (xs.take (i + 1)).countP p = (xs.take i).countP p + 1 := by
    rw [List.take_add_one, hx, List.countP_append]
    simp [hp]
  have := hsub.countP_le (p := p)
  omega

/-- Every number below the count is the count before some element that counts. -/
theorem exists_countP_take {α : Type} (p : α → Bool) {xs : List α} {k : Nat}
    (hk : k < xs.countP p) :
    ∃ i x, xs[i]? = some x ∧ p x = true ∧ (xs.take i).countP p = k := by
  induction xs generalizing k with
  | nil => simp at hk
  | cons a xs ih =>
      rw [List.countP_cons] at hk
      by_cases ha : p a = true
      · rw [if_pos ha] at hk
        cases k with
        | zero => exact ⟨0, a, rfl, ha, rfl⟩
        | succ k =>
            obtain ⟨i, x, hx, hp, hi⟩ := ih (by omega : k < xs.countP p)
            refine ⟨i + 1, x, hx, hp, ?_⟩
            rw [List.take_succ_cons, List.countP_cons, if_pos ha, hi]
      · rw [if_neg ha] at hk
        obtain ⟨i, x, hx, hp, hi⟩ := ih hk
        refine ⟨i + 1, x, hx, hp, ?_⟩
        rw [List.take_succ_cons, List.countP_cons, if_neg ha, hi]
        rfl

/-- Registers given to different arguments do not overlap. -/
theorem assign_unit_ne (h : Banked unit rules bank regs units) {cnt : B → Nat} {taken : List Reg}
    (ht : TakenOf unit units cnt taken) {vts : List VT} {i j : Nat} {r r' : Reg} (hij : i < j)
    (hi : (assign unit rules vts taken)[i]? = some (some r))
    (hj : (assign unit rules vts taken)[j]? = some (some r')) : unit r ≠ unit r' := by
  have hget : ∀ k s, (assign unit rules vts taken)[k]? = some (some s) → ∃ vt, vts[k]? = some vt ∧
      (units (bank vt))[cnt (bank vt) + (vts.take k).countP fun v => bank v = bank vt]?
        = some (unit s) := by
    intro k s hk
    rw [assign_eq h ht] at hk
    obtain ⟨vt, hvt, hk⟩ := Option.map_eq_some_iff.mp hk
    obtain ⟨p, hp, rfl⟩ := Option.map_eq_some_iff.mp hk
    refine ⟨vt, hvt, ?_⟩
    rw [← h.units_eq vt, List.getElem?_map, hp]
    rfl
  obtain ⟨vt, hvt, hu⟩ := hget i r hi
  obtain ⟨vt', hvt', hu'⟩ := hget j r' hj
  by_cases hb : bank vt = bank vt'
  · have hlt := countP_take_lt (fun v => bank v = bank vt) hvt (decide_eq_true rfl) hij
    rw [← hb] at hu'
    intro he
    rw [he] at hu
    have := (List.getElem?_inj (List.getElem?_eq_some_iff.mp hu).1 (h.nodup_units _)).mp
      (hu.trans hu'.symm)
    omega
  · intro he
    refine h.disjoint_units _ _ hb (unit r) (List.mem_of_getElem? hu) ?_
    rw [he]
    exact List.mem_of_getElem? hu'

end SmlnjCfg.CallConv
