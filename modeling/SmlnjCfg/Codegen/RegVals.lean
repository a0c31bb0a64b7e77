import SmlnjCfg.Codegen.Regs

/-!
# `SmlnjCfg.Codegen.RegVals`: a property of all values of the special registers

The values that registers get come from four places: the entry of a fragment, an instruction
whose result is a pointer, the allocation pointer (for the store pointer), and the operand of
`SET_HDLR` or `SET_VAR`. A property of such values is one of all values that registers have.

The overflow block needs this. Its phi nodes are pointers, and `addIncoming` gives them the
values of the registers without a conversion. So a path to it can be made only where all of them
are pointers, which the setters can break: they make their operand the value of a register as it
is, and that may be a native integer.

* `RegsHold`: all values of the registers have the property.
* `runInv_regVals`: the invariant of a whole run.
* `InitsFrags.ptrRegs`: the values are pointers, where the setters are given pointers.
-/

set_option autoImplicit false

namespace SmlnjCfg.Codegen

open Cfg Gen

/-- All values of the registers satisfy `Q`, and `n` instructions have numbers. -/
structure RegsHold (n : Nat) (Q : CMRegId → Val → Prop) (c : Context) : Prop where
  le : n ≤ c.nextId
  val : ∀ r v, c.regState.val r = some v → Q r v

theorem RegsHold.of_eq {n : Nat} {Q : CMRegId → Val → Prop} {c c' : Context} (h : RegsHold n Q c)
    (hle : c.nextId ≤ c'.nextId) (hval : c'.regState.val = c.regState.val) : RegsHold n Q c' where
  le := Nat.le_trans h.le hle
  val r v hv := h.val r v (hval ▸ hv)

/-- The operand of a setter of a register that has a value satisfies `Q`. -/
def OperandHolds (Q : CMRegId → Val → Prop) (s : Stm .cpp) (c : Context) : Prop :=
  match s with
  | .SETTER oper args _ => ∀ r, oper.reg = some r → (c.regState.val r).isSome = true →
      ∀ vs c', (Exp.codegenArgs args).run c = .ok (vs, c') → ∀ v, vs[0]? = some v → Q r v
  | _ => True

section

variable {n : Nat} {Q : CMRegId → Val → Prop} (hQ : ∀ r id, n ≤ id → Q r (.inst id ptrTy))
  (hstore : ∀ v, Q .ALLOC_PTR v → Q .STORE_PTR v)

include hQ hstore

/-- The values that a head gives to registers satisfy `Q`. -/
theorem NewReg.holds {s : Stm .cpp} {c₀ : Context} {m : Nat} {r : CMRegId} {v : Val}
    (hs : OperandHolds Q s c₀) (hc₀ : RegsHold n Q c₀) (hsome : (c₀.regState.val r).isSome = true)
    (h : NewReg s c₀ m r v) : Q r v := by
  cases h with
  | result h =>
      obtain ⟨id, rfl, hlo, -⟩ := h
      exact hQ r id (Nat.le_trans hc₀.le hlo)
  | allocPtr h => exact hstore v (hc₀.val .ALLOC_PTR v h)
  | operand hstm hr hargs hv =>
      subst hstm
      exact hs r hr hsome _ _ hargs v hv

/-- The head of a statement keeps the property of the registers. -/
theorem Stm.head_regsHold {frag : Nat} {s : Stm .cpp} {path : List Nat} {c c' : Context}
    (h : s.head frag path c = .ok ((), c')) (hs : OperandHolds Q s c) (hc : RegsHold n Q c) :
    RegsHold n Q c' := by
  refine (Stm.head_preorder (P := fun c₁ c₂ => KeepsPlaces c₁ c₂ ∧
    (KeepsPlaces c c₁ → RegsHold n Q c₁ → RegsHold n Q c₂)) h ?_ ?_ ?_ ?_).2
      ⟨rfl, rfl, fun _ => rfl⟩ hc
  · exact fun c₁ => ⟨⟨rfl, rfl, fun _ => rfl⟩, fun _ hc₁ => hc₁⟩
  · rintro c₁ c₂ c₃ ⟨hplaces, h₁₂⟩ ⟨hplaces', h₂₃⟩
    exact ⟨hplaces.trans hplaces', fun hfirst hc₁ =>
      h₂₃ (hfirst.trans hplaces) (h₁₂ hfirst hc₁)⟩
  · intro c₁ c₂ hstep
    refine ⟨hstep.keepsPlaces, fun hfirst hc₁ => ?_⟩
    cases hstep with
    | @setReg r o hset =>
        -- a register that has a value now had one when the head started
        obtain ⟨hsome, v, rfl, hnew, -⟩ := hset
        have hv : Q r v := NewReg.holds hQ hstore hs hc (hfirst.isSome_val r ▸ hsome) hnew
        refine ⟨hc₁.le, fun r' w hw => ?_⟩
        by_cases hr : r' = r
        · subst hr
          rw [CMRegState.set_val_self] at hw
          exact Option.some.inj hw ▸ hv
        · rw [CMRegState.set_val_of_ne _ _ hr] at hw
          exact hc₁.val r' w hw
    | setBase _ hbase => exact hbase.elim
    | emit o => exact hc₁.of_eq (Nat.le_succ _) rfl
    | _ => exact hc₁.of_eq (Nat.le_refl _) rfl
  · intro obit res c₁ c₂ hbr
    obtain ⟨-, hle, -, hregs⟩ := overflowBranch_env hbr
    exact ⟨.overflowBranch hbr, fun _ hc₁ => hc₁.of_eq hle (by rw [hregs])⟩

/-- If operands that become values of registers satisfy `Q`, so do all values of
registers, at everything that code generation comes to. -/
theorem runInv_regVals {F : List FragBB → Context → Prop}
    (hfrag : ∀ {f : FragBB} {fs : List FragBB} {i : Nat} {c c' : Context}, f.bb = .stm i [] →
      (0 < i → RegsHold n Q c) → F (f :: fs) c → fragStart i f c = .ok ((), c') →
      RegsHold n Q c')
    (hrest : ∀ {R : BBId → Prop} {f : FragBB} {fs : List FragBB} {c c' : Context},
      Grows R c c' → F (f :: fs) c → F fs c') :
    RunInv (OperandHolds Q) (RegsHold n Q)
      (fun saved _ => ∀ r v, saved.val r = some v → Q r v) F where
  head h hs hc := Stm.head_regsHold hQ hstore h hs hc
  saved hc := hc.val
  arm hc hsaved := ⟨hc.le, hsaved⟩
  later _ hsaved := hsaved
  frag := hfrag
  rest := hrest

end

/-! ### Pointers in the registers -/

/-- All special registers that have a value in the context have a pointer. `SET_HDLR` and
`SET_VAR` make their operand the value of a register as it is, so an integer there breaks
this, and the phi nodes of the overflow block, which are pointers, cannot take it. -/
def PtrRegs (c : Context) : Prop := ∀ reg v, c.regState.val reg = some v → v.getType = ptrTy

/-- The operand of a `SET_HDLR` or `SET_VAR` whose register has a value is a pointer. -/
def PtrOperand : Stm .cpp → Context → Prop := OperandHolds fun _ v => v.getType = ptrTy

/-- The parameters of the function and the phi nodes of the fragments that the registers get
their values from are pointers. -/
structure PtrEntries (fs : List FragBB) (c : Context) : Prop where
  params : ∀ fn (k : Nat) ty, c.curFn = some fn → k < c.target.numMachineRegs →
    fn.fnTy[k]? = some ty → ty = ptrTy
  phis : ∀ f ∈ fs, f.frag.kind = .con .INTERNAL → ∀ (k : Nat) p, k < c.target.numMachineRegs →
    f.phiNodes[k]? = some p → p.2 = ptrTy

/-- Initialization makes pointers for the registers, given a function that takes pointers. -/
theorem InitsFrags.ptrEntries {cf : ClusterFn} {c d : Context} {fs : List FragBB}
    (h : InitsFrags cf.cluster.frags 0 fs (clusterStart cf c) d)
    (hty : ∀ k < c.target.numMachineRegs, cf.fn.fnTy[k]? = some ptrTy) : PtrEntries fs d where
  params fn k ty hfn hk hget := by
    have htarget : d.target = c.target := by rw [h.frame]; rfl
    have hcur : d.curFn = some cf.fn := by rw [h.frame]; rfl
    rw [htarget] at hk
    rw [hcur] at hfn
    cases hfn
    rw [hty k hk] at hget
    exact (Option.some.inj hget).symm
  phis f hf hkind k p hk hget := by
    have htarget : d.target = c.target := by rw [h.frame]; rfl
    have htys := h.tys f hf hkind
    rw [htarget] at hk
    -- the phi nodes start with those for the machine registers
    have hfirst : (f.phiNodes.map Prod.snd)[k]? = some ptrTy := by
      rw [htys]
      simp only [paramTysOf, argInfo, List.append_assoc]
      rw [List.getElem?_append_left (by rw [List.length_replicate]; exact hk),
        List.getElem?_replicate]
      exact if_pos hk
    rw [List.getElem?_map, hget] at hfirst
    exact Option.some.inj hfirst

/-- The registers at the start of a fragment are pointers. -/
theorem PtrEntries.fragStart {f : FragBB} {fs : List FragBB} {i : Nat} {c c' : Context}
    (he : PtrEntries (f :: fs) c) (hregs : 0 < i → PtrRegs c)
    (h : fragStart i f c = .ok ((), c')) : PtrRegs c' := by
  intro r v hv
  have hentry := fragEntry_ok h
  cases hr : c.target.isMachineReg r with
  | true =>
      rcases hentry.machine r hr with
        ⟨-, k, fn, ty, hk, hfn, hty, hval⟩ | ⟨-, hkind, k, p, hk, hp, hval⟩
      · rw [hval] at hv
        cases hv
        exact he.params fn k ty hfn hk hty
      · rw [hval] at hv
        cases hv
        exact he.phis f List.mem_cons_self hkind k p hk hp
  | false =>
      rcases hentry.stack r hr with ⟨-, hval⟩ | ⟨hi, hval⟩
      · rw [hval] at hv
        cases hv
      · rw [hval] at hv
        exact hregs hi r v hv

theorem runInv_ptrRegs : RunInv PtrOperand (RegsHold 0 fun _ v => v.getType = ptrTy)
    (fun saved _ => ∀ r v, saved.val r = some v → v.getType = ptrTy) PtrEntries := by
  refine runInv_regVals (fun _ _ _ => rfl) (fun _ h => h) ?_ ?_
  · intro f fs i c c' _ hc he h
    exact ⟨Nat.zero_le _, he.fragStart (fun hi => (hc hi).val) h⟩
  · intro R f fs c c' hg he
    refine ⟨fun fn k ty hfn hk => ?_, fun g hg' hkind k p hk => ?_⟩
    · exact he.params fn k ty (hg.curFn ▸ hfn) (hg.target ▸ hk)
    · exact he.phis g (List.mem_cons_of_mem _ hg') hkind k p (hg.target ▸ hk)

/-- Wherever code generation comes to, the registers are pointers, as long as no integer has
been the operand of a `SET_HDLR` or `SET_VAR`. -/
theorem InitsFrags.ptrRegs {cf : ClusterFn} {c d d' : Context} {fs : List FragBB} {frag : Nat}
    {s : Stm .cpp} {path : List Nat}
    (h : InitsFrags cf.cluster.frags 0 fs (clusterStart cf c) d)
    (hty : ∀ k < c.target.numMachineRegs, cf.fn.fnTy[k]? = some ptrTy)
    (hops : RunInv.Allowed PtrOperand (.frags fs 0) d)
    (hv : Visits (.frags fs 0, d) (.stm frag s path, d')) : PtrRegs d' :=
  (runInv_ptrRegs.visits hv hops
    ⟨fun hi => absurd hi (Nat.lt_irrefl 0), h.ptrEntries hty⟩ : RegsHold 0 _ d').val

end SmlnjCfg.Codegen
