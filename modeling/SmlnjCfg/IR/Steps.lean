import SmlnjCfg.IR.Exec

/-!
# `SmlnjCfg.IR.Steps`: well-typed instructions and straight-line execution

LLVM gives no meaning to an instruction whose operands have the wrong types,
so straight-line execution checks them. The theorems:

* `Op.step_regs`: an instruction sets its own register only.
* `Op.step_quiet`: most instructions leave the memory alone.
* `Op.run_fixed`, `Reaches.fixed`: what is promised to stay the same does, in a whole run.
* `reaches_steps`: a run of instructions inside a block.
* `leaveBlock`: the rest of a block, and the edge that is taken at its end.
* `enter_ok`: the phi nodes of a block that is entered.
-/

set_option autoImplicit false

namespace SmlnjCfg.IR

variable {β γ : Type}

/-! ### Types of operands -/

/-- `isFloatingPointTy`. -/
def Ty.isFloatingPointTy : Ty → Bool
  | .float => true
  | .double => true
  | _ => false

/-- The floating-point type of a bit size. -/
def Ty.ofFloatBits (bits : Nat) : Ty := if bits = 64 then .double else .float

/-- The types a conversion is allowed between. -/
def CastOp.wellTyped (op : CastOp) (src dst : Ty) : Bool :=
  match op with
  | .intToPtr => src.isIntegerTy && dst.isPointerTy
  | .ptrToInt => src.isPointerTy && dst.isIntegerTy
  | .bitCast => src.isPointerTy == dst.isPointerTy && src.bits == dst.bits
  | .trunc => src.isIntegerTy && dst.isIntegerTy && decide (dst.bits < src.bits)
  | .sext => src.isIntegerTy && dst.isIntegerTy && decide (src.bits < dst.bits)
  | .zext => src.isIntegerTy && dst.isIntegerTy && decide (src.bits < dst.bits)
  | .siToFP => src.isIntegerTy && dst.isFloatingPointTy
  | .fpToSI => src.isFloatingPointTy && dst.isIntegerTy

/-- The types of the arguments of an intrinsic. -/
def Intrinsic.argTys (f : Intrinsic) (bits : Nat) : List Ty :=
  match f with
  | .ctpop => [.int bits]
  | .ctlz => [.int bits]
  | .cttz => [.int bits]
  | .fshl => [.int bits, .int bits, .int bits]
  | .fshr => [.int bits, .int bits, .int bits]
  | .fma => [.ofFloatBits bits, .ofFloatBits bits, .ofFloatBits bits]
  | .fabs => [.ofFloatBits bits]
  | .sqrt => [.ofFloatBits bits]
  | .copysign => [.ofFloatBits bits, .ofFloatBits bits]

/-- The operands of an instruction have the types it is defined for. -/
def Op.wellTyped : Op γ → Bool
  | .bin _ a b => a.getType.isIntegerTy && a.getType == b.getType
  | .fbin _ a b => a.getType.isFloatingPointTy && a.getType == b.getType
  | .fneg a => a.getType.isFloatingPointTy
  | .intrinsic f bits args => args.map Value.getType == f.argTys bits
  | .overflow _ bits a b => a.getType == .int bits && b.getType == .int bits
  | .extract _ _ => true
  | .cast op v ty => op.wellTyped v.getType ty
  | .icmp _ a b =>
      (a.getType.isIntegerTy || a.getType.isPointerTy) && a.getType == b.getType
  | .fcmp _ a b => a.getType.isFloatingPointTy && a.getType == b.getType
  | .gep _ base idx => base.getType.isPointerTy && idx.getType.isIntegerTy
  | .load _ adr _ => adr.getType.isPointerTy
  | .loadInvariant _ adr _ => adr.getType.isPointerTy
  | .store _ adr _ => adr.getType.isPointerTy
  | .readSP => true
  | .call fn _ => fn.getType.isPointerTy

/-! ### Operands that exist -/

/-- The operand is not the result of an instruction numbered `n` or later. -/
def Value.Below (n : Nat) : Value γ → Prop
  | .inst id _ => id < n
  | _ => True

namespace Value

theorem Below.mono {n m : Nat} {v : Value γ} (h : v.Below n) (hle : n ≤ m) : v.Below m := by
  cases v with
  | inst id ty => exact Nat.lt_of_lt_of_le h hle
  | arg i ty => trivial
  | const bits c => trivial
  | global s ty => trivial
  | undef ty => trivial

/-- The value of an operand depends on the earlier results only. -/
theorem eval_congr {act : Activation γ} {regs regs' : Nat → List Word} {n : Nat} {v : Value γ}
    (hv : v.Below n) (h : ∀ id < n, regs' id = regs id) : v.eval act regs' = v.eval act regs := by
  cases v with
  | inst id ty =>
      show (regs' id).head? = (regs id).head?
      rw [h id hv]
  | arg i ty => rfl
  | const bits c => rfl
  | global s ty => rfl
  | undef ty => rfl

end Value

/-! ### Instructions -/

namespace State

@[simp] theorem regs_setReg_self (s : State) (id : Nat) (ws : List Word) :
    (s.setReg id ws).regs id = ws := Function.update_self ..

@[simp] theorem mem_setReg (s : State) (id : Nat) (ws : List Word) :
    (s.setReg id ws).mem = s.mem := rfl

@[simp] theorem trace_setReg (s : State) (id : Nat) (ws : List Word) :
    (s.setReg id ws).trace = s.trace := rfl

@[simp] theorem regs_store (s : State) (adr : Word) (size : Nat) (w : Word) :
    (s.store adr size w).regs = s.regs := rfl

@[simp] theorem mem_store (s : State) (adr : Word) (size : Nat) (w : Word) :
    (s.store adr size w).mem = s.mem.write adr.toNat size w.toNat := rfl

@[simp] theorem trace_store (s : State) (adr : Word) (size : Nat) (w : Word) :
    (s.store adr size w).trace = s.trace ++ [⟨adr.toNat, size, w.toNat⟩] := rfl

theorem regs_setReg_of_ne (s : State) {id j : Nat} (ws : List Word) (h : j ≠ id) :
    (s.setReg id ws).regs j = s.regs j := Function.update_of_ne h ..

end State

/-- The instruction is neither a store nor a call. -/
def Op.isQuiet : Op γ → Bool
  | .store .. => false
  | .call .. => false
  | _ => true

/-- The state after an instruction, seen from outside: its register is set, and
a store or a call may change the memory. Stores are added to the trace. -/
theorem Op.step_eq {act : Activation γ} {id : Nat} {s s' : State} {o : Op γ}
    (h : o.step act id s = some s') :
    (∃ ws, s' = s.setReg id ws) ∨
      (o.isQuiet = false ∧ (∀ j ≠ id, s'.regs j = s.regs j) ∧ ∃ ws, s'.trace = s.trace ++ ws) := by
  cases o
  case store v adr align =>
    refine .inr ⟨rfl, ?_⟩
    simp only [Op.step, Option.bind_eq_bind, Option.bind_eq_some_iff, Option.some.injEq] at h
    obtain ⟨w, -, x, -, rfl⟩ := h
    exact ⟨fun j _ => rfl, _, rfl⟩
  case call fn args =>
    refine .inr ⟨rfl, ?_⟩
    simp only [Op.step, Option.bind_eq_bind, Option.bind_eq_some_iff, Option.some.injEq] at h
    obtain ⟨f, -, xs, -, rfl⟩ := h
    exact ⟨fun j hj => State.regs_setReg_of_ne _ _ hj, [], (List.append_nil _).symm⟩
  case loadInvariant ty adr align =>
    refine .inl ?_
    simp only [Op.step, Option.bind_eq_bind, Option.bind_eq_some_iff] at h
    obtain ⟨x, -, h⟩ := h
    obtain ⟨-, h⟩ := Option.ite_none_right_eq_some.mp h
    exact ⟨_, (Option.some.inj h).symm⟩
  all_goals
    simp only [Op.step, Option.bind_eq_bind, Option.bind_eq_some_iff, Option.some.injEq] at h
    refine .inl ?_
    grind

/-- An instruction sets its own register only. -/
theorem Op.step_regs {act : Activation γ} {id : Nat} {s s' : State} {o : Op γ}
    (h : o.step act id s = some s') {j : Nat} (hj : j ≠ id) : s'.regs j = s.regs j := by
  cases Op.step_eq h with
  | inl h =>
      obtain ⟨ws, rfl⟩ := h
      exact State.regs_setReg_of_ne s ws hj
  | inr h => exact h.2.1 j hj

/-- A quiet instruction leaves the memory alone. -/
theorem Op.step_quiet {act : Activation γ} {id : Nat} {s s' : State} {o : Op γ}
    (h : o.step act id s = some s') (hq : o.isQuiet = true) :
    s'.mem = s.mem ∧ s'.trace = s.trace := by
  cases Op.step_eq h with
  | inl h =>
      obtain ⟨ws, rfl⟩ := h
      exact ⟨rfl, rfl⟩
  | inr h => exact absurd hq (by rw [h.1]; exact Bool.false_ne_true)

/-- The stores so far stay in the trace. -/
theorem Op.step_trace {act : Activation γ} {id : Nat} {s s' : State} {o : Op γ}
    (h : o.step act id s = some s') : ∃ ws, s'.trace = s.trace ++ ws := by
  cases Op.step_eq h with
  | inl h =>
      obtain ⟨ws, rfl⟩ := h
      exact ⟨[], (List.append_nil _).symm⟩
  | inr h => exact h.2.2

/-! ### Promises -/

/-- An invariant load of memory that is promised to stay the same. -/
theorem Op.step_loadInvariant {act : Activation γ} {id align : Nat} {s : State} (ty : Ty)
    {adr : Value γ} {x : Word} (hx : adr.eval act s.regs = some x)
    (hfixed : Mem.within act.host.fixed x.toNat ty.bytes = true) :
    (Op.loadInvariant ty adr align).step act id s = some (s.setReg id [s.load x ty.bytes]) := by
  simp only [Op.step, hx, Option.bind_eq_bind, Option.bind_some, if_pos hfixed]

theorem keeps_append {p : Nat → Bool} {ws ws' : List Write} :
    keeps p (ws ++ ws') = true ↔ keeps p ws = true ∧ keeps p ws' = true := by
  simp [keeps]

/-- Where there are no new stores, no promise is broken. -/
theorem keeps_drop_of_eq {p : Nat → Bool} {ws ws' : List Write} (h : ws' = ws) :
    keeps p (ws'.drop ws.length) = true := by
  rw [h, List.drop_length]
  rfl

theorem Op.run_eq_some {act : Activation γ} {id : Nat} {s s' : State} {o : Op γ} :
    o.run act id s = some s' ↔ o.step act id s = some s' ∧
      keeps act.host.fixed (s'.trace.drop s.trace.length) = true := by
  rw [Op.run, Option.filter_eq_some_iff]

/-- What is promised to stay the same is the same after an instruction. -/
theorem Op.run_fixed {act : Activation γ} {id : Nat} {s s' : State} {o : Op γ}
    (h : o.run act id s = some s') {a : Nat} (ha : act.host.fixed a = true) :
    s'.mem a = s.mem a := by
  obtain ⟨hstep, hkeep⟩ := Op.run_eq_some.mp h
  cases o
  case store v adr align =>
    simp only [Op.step, Option.bind_eq_bind, Option.bind_eq_some_iff, Option.some.injEq] at hstep
    obtain ⟨w, -, x, -, rfl⟩ := hstep
    rw [State.trace_store, List.drop_left] at hkeep
    simp only [keeps, List.all_cons, List.all_nil, Bool.and_true] at hkeep
    exact Mem.write_of_spares hkeep ha
  case call fn args =>
    simp only [Op.step, Option.bind_eq_bind, Option.bind_eq_some_iff, Option.some.injEq] at hstep
    obtain ⟨f, -, xs, -, rfl⟩ := hstep
    exact act.host.call_fixed f xs s.mem a ha
  all_goals rw [(Op.step_quiet hstep rfl).1]

/-- The memory is the same in the block that is entered. -/
theorem enter_mem [DecidableEq β] {act : Activation γ} {F : Body β γ} {pred b : β} {s s' : State}
    (h : enter act F pred b s = some s') : s'.mem = s.mem := by
  obtain ⟨ws, -, h⟩ := Option.bind_eq_some_iff.mp h
  cases h
  rfl

theorem next_fixed [DecidableEq β] {act : Activation γ} {F : Body β γ} {c c' : Config β γ}
    (h : next act F c = some c') {a : Nat} (ha : act.host.fixed a = true) :
    c'.st.mem a = c.st.mem a := by
  unfold next at h
  split at h
  next id o rest hrest =>
    obtain ⟨s, hrun, rfl⟩ := Option.map_eq_some_iff.mp h
    exact Op.run_fixed hrun ha
  next t rest hrest =>
    split at h
    next b hexit =>
      obtain ⟨s, henter, rfl⟩ := Option.map_eq_some_iff.mp h
      rw [enter_mem henter]
    next => cases h
  next => cases h

/-- In a whole run of a function, the memory that is promised to stay the same does. This is
what makes an invariant load meaningful wherever in the run it is executed. -/
theorem Reaches.fixed [DecidableEq β] {act : Activation γ} {F : Body β γ} {c c' : Config β γ}
    (h : Reaches act F c c') {a : Nat} (ha : act.host.fixed a = true) :
    c'.st.mem a = c.st.mem a := by
  induction h with
  | refl => rfl
  | tail _ hstep ih => exact (next_fixed hstep ha).trans ih

/-! ### Straight-line code -/

/-- Execute numbered instructions one after the other. -/
def steps (act : Activation γ) : List (Nat × Op γ) → State → Option State
  | [], s => some s
  | (id, o) :: is, s => (o.step act id s).bind (steps act is)

theorem steps_append (act : Activation γ) (is js : List (Nat × Op γ)) (s : State) :
    steps act (is ++ js) s = (steps act is s).bind (steps act js) := by
  induction is generalizing s with
  | nil => rfl
  | cons p is ih => simp only [List.cons_append, steps, Option.bind_assoc, ih]

theorem steps_trace {act : Activation γ} {is : List (Nat × Op γ)} {s s' : State}
    (h : steps act is s = some s') : ∃ ws, s'.trace = s.trace ++ ws := by
  induction is generalizing s with
  | nil =>
      obtain rfl : s = s' := Option.some.inj h
      exact ⟨[], (List.append_nil _).symm⟩
  | cons p is ih =>
      obtain ⟨s₁, hs, hrest⟩ := Option.bind_eq_some_iff.mp h
      obtain ⟨ws, hws⟩ := Op.step_trace hs
      obtain ⟨ws', hws'⟩ := ih hrest
      exact ⟨ws ++ ws', by rw [hws', hws, List.append_assoc]⟩

/-- If the stores of straight-line code break no promise, then none of its instructions
does: the stores of the first one are among them. -/
theorem steps_cons {act : Activation γ} {p : Nat × Op γ} {is : List (Nat × Op γ)} {s s' : State}
    (h : steps act (p :: is) s = some s')
    (hkeep : keeps act.host.fixed (s'.trace.drop s.trace.length) = true) :
    ∃ s₁, p.2.run act p.1 s = some s₁ ∧ steps act is s₁ = some s' ∧
      keeps act.host.fixed (s'.trace.drop s₁.trace.length) = true := by
  obtain ⟨s₁, hs, hrest⟩ := Option.bind_eq_some_iff.mp h
  obtain ⟨ws, hws⟩ := Op.step_trace hs
  obtain ⟨ws', hws'⟩ := steps_trace hrest
  have hdrop : s'.trace.drop s.trace.length = ws ++ ws' := by
    rw [hws', hws, List.append_assoc, List.drop_left]
  rw [hdrop] at hkeep
  obtain ⟨hfirst, hlater⟩ := keeps_append.mp hkeep
  refine ⟨s₁, Op.run_eq_some.mpr ⟨hs, ?_⟩, hrest, ?_⟩
  · rw [hws, List.drop_left]
    exact hfirst
  · rw [hws', List.drop_left]
    exact hlater

/-- Instructions at the front of what is left of a block are executed in order, if they store
to nothing that is promised to stay the same. -/
theorem reaches_steps [DecidableEq β] {act : Activation γ} {F : Body β γ} {b : β}
    {is : List (Nat × Op γ)} {rest : List (Inst β γ)} {s s' : State}
    (h : steps act is s = some s')
    (hkeep : keeps act.host.fixed (s'.trace.drop s.trace.length) = true) :
    Reaches act F ⟨b, is.map (fun p => .op p.1 p.2) ++ rest, s⟩ ⟨b, rest, s'⟩ := by
  induction is generalizing s with
  | nil =>
      obtain rfl : s = s' := Option.some.inj h
      exact .refl
  | cons p is ih =>
      obtain ⟨s₁, hs, hrest, hkeep₁⟩ := steps_cons h hkeep
      refine .head ?_ (ih hrest hkeep₁)
      show (p.2.run act p.1 s).map _ = _
      rw [hs]
      rfl

/-- Execution does not get past an instruction that is undefined. -/
theorem reaches_stuck [DecidableEq β] {act : Activation γ} {F : Body β γ} {b : β}
    {is : List (Nat × Op γ)} {id : Nat} {o : Op γ} {rest : List (Inst β γ)} {s s₁ : State}
    {cfg : Config β γ} (h : steps act is s = some s₁) (ho : o.step act id s₁ = none)
    (hreach : Reaches act F ⟨b, is.map (fun p => .op p.1 p.2) ++ .op id o :: rest, s⟩ cfg) :
    cfg.blk = b ∧ rest.length < cfg.rest.length := by
  induction is generalizing s with
  | nil =>
      obtain rfl : s = s₁ := Option.some.inj h
      cases hreach.cases_head with
      | inl heq =>
          subst heq
          exact ⟨rfl, by simp⟩
      | inr hstep =>
          obtain ⟨cfg₁, hnext, -⟩ := hstep
          simp [next, Op.run, ho] at hnext
  | cons p is ih =>
      obtain ⟨s₂, hs₂, hrest⟩ := Option.bind_eq_some_iff.mp h
      cases hreach.cases_head with
      | inl heq =>
          subst heq
          exact ⟨rfl, by simp; omega⟩
      | inr hstep =>
          obtain ⟨cfg₁, hnext, hreach'⟩ := hstep
          obtain ⟨s₃, hrun, rfl⟩ := Option.map_eq_some_iff.mp hnext
          obtain rfl : s₂ = s₃ := Option.some.inj (hs₂.symm.trans (Op.run_eq_some.mp hrun).1)
          exact ih hrest hreach'

/-! ### The end of a block -/

/-- The rest of a block, executed to its terminator, and the step along the edge that the
terminator selects. There is no result where the function ends with the block. -/
def leaveBlock [DecidableEq β] (act : Activation γ) (F : Body β γ) (b : β) :
    List (Inst β γ) → State → Option (Config β γ)
  | .op id o :: rest, s => (o.run act id s).bind (leaveBlock act F b rest)
  | .term t :: rest, s => next act F ⟨b, .term t :: rest, s⟩
  | _, _ => none

/-- Instructions at the front of a block come before the rest of it. -/
theorem leaveBlock_steps [DecidableEq β] {act : Activation γ} {F : Body β γ} {b : β}
    {is : List (Nat × Op γ)} {rest : List (Inst β γ)} {s s' : State}
    (h : steps act is s = some s')
    (hkeep : keeps act.host.fixed (s'.trace.drop s.trace.length) = true) :
    leaveBlock act F b (is.map (fun p => .op p.1 p.2) ++ rest) s = leaveBlock act F b rest s' := by
  induction is generalizing s with
  | nil =>
      obtain rfl : s = s' := Option.some.inj h
      rfl
  | cons p is ih =>
      obtain ⟨s₁, hs, hrest, hkeep₁⟩ := steps_cons h hkeep
      show (p.2.run act p.1 s).bind _ = _
      rw [hs]
      exact ih hrest hkeep₁

/-! ### Entering a block -/

theorem find?_zip_nodup {phis : List (Nat × Ty)} {ws : List Word}
    (hnodup : (phis.map Prod.fst).Nodup) {i : Nat} {p : Nat × Ty} {w : Word}
    (hp : phis[i]? = some p) (hw : ws[i]? = some w) :
    ((phis.zip ws).find? fun q => q.1.1 = p.1) = some (p, w) := by
  induction phis generalizing i ws with
  | nil => simp at hp
  | cons q phis ih =>
      cases ws with
      | nil => simp at hw
      | cons w' ws =>
          rw [List.map_cons, List.nodup_cons] at hnodup
          cases i with
          | zero =>
              obtain rfl : q = p := by simpa using hp
              obtain rfl : w' = w := by simpa using hw
              simp
          | succ i =>
              have hp' : phis[i]? = some p := by simpa using hp
              have hne : q.1 ≠ p.1 := fun he => hnodup.1 (by
                rw [he]
                exact List.mem_map_of_mem (List.mem_of_getElem? hp'))
              rw [List.zip_cons_cons, List.find?_cons_of_neg (by simpa using hne)]
              exact ih hnodup.2 hp' (by simpa using hw)

/-- All phi nodes of a block get the values that come in from the predecessor. -/
theorem enter_ok [DecidableEq β] {act : Activation γ} {F : Body β γ} {pred b : β} {s : State}
    {ws : List Word} (hnodup : ((F.phisOf b).map Prod.fst).Nodup)
    (hws : List.Forall₂ (fun p w => ∃ v, F.incomingOf p.1 pred = some v ∧
      v.eval act s.regs = some w) (F.phisOf b) ws) :
    ∃ s', enter act F pred b s = some s' ∧ s'.mem = s.mem ∧ s'.trace = s.trace ∧
      (∀ (i : Nat) p w, (F.phisOf b)[i]? = some p → ws[i]? = some w → s'.regs p.1 = [w]) ∧
      ∀ id ∉ (F.phisOf b).map Prod.fst, s'.regs id = s.regs id := by
  have hmap : ∀ phis ws', List.Forall₂ (fun (p : Nat × Ty) w => ∃ v,
      F.incomingOf p.1 pred = some v ∧ v.eval act s.regs = some w) phis ws' →
      phis.mapM (fun p => (F.incomingOf p.1 pred).bind (·.eval act s.regs)) = some ws' := by
    intro phis ws' h
    induction h with
    | nil => rfl
    | cons h _ ih =>
        obtain ⟨v, hv, hw⟩ := h
        simp [List.mapM_cons, hv, hw, ih]
  cases henter : enter act F pred b s with
  | none =>
      rw [enter, hmap _ _ hws] at henter
      cases henter
  | some s' =>
      rw [enter, hmap _ _ hws] at henter
      cases henter
      refine ⟨_, rfl, rfl, rfl, fun i p w hp hw => ?_, fun id hid => ?_⟩
      · simp only [find?_zip_nodup hnodup hp hw]
      · have hnone : (((F.phisOf b).zip ws).find? fun q => q.1.1 = id) = none := by
          rw [List.find?_eq_none]
          intro q hq
          have hmem := (List.of_mem_zip hq).1
          simp only [decide_eq_true_eq]
          rintro rfl
          exact hid (List.mem_map_of_mem hmem)
        simp only [hnone]

end SmlnjCfg.IR
