import SmlnjCfg.Codegen.Entry

/-!
# `SmlnjCfg.Codegen.Raise`: the code of the overflow block

The overflow block fetches the address of the run-time system's handler from the
stack and calls it with the special registers, which are its phi nodes.

* `RaisesAt`: the code of the block, at any point of a run.
* `ClusterRun.raisesAt`: it is the code at the end.
* `RaisesAt.final`: what is called.
-/

set_option autoImplicit false

namespace SmlnjCfg.Codegen

open Cfg Gen IR

/-- The code that fetches the address of the handler, which is in a stack slot of its own. -/
def fetchRaise (t : TargetInfo) : Gen Val :=
  loadFromStack t.raiseOvflwOffset >>= fun v => createBitCast v ptrTy

/-- The block `bb` begins with a call of the handler. It is said of the code in the block so far,
at any point after the block was made, and the numbers of the phi nodes are below those of the
code. -/
structure RaisesAt (c : Context) (bb : BBId) : Prop where
  code : ∃ (c₀ c₁ : Context) (fn : Val) (is : List (Nat × Op Sym)),
    (fetchRaise c.target).run c₀ = .ok (fn, c₁) ∧ Ext c₀ c₁ is ∧
    (∀ phi ∈ c.overflowPhiNodes, phi < c₀.nextId) ∧
    is.map (fun p => .op p.1 p.2) ++ [.exitCall false fn (c.overflowPhiNodes.map fun phi =>
      .inst phi ptrTy), .term .retVoid] <+: c.body.block bb

/-- Code that is added later does not change the beginning of the block. -/
theorem RaisesAt.of_grows {R : BBId → Prop} {c c' : Context} {bb : BBId} (h : RaisesAt c bb)
    (hg : Grows R c c') (hbb : c.overflowBB = some bb) : RaisesAt c' bb := by
  obtain ⟨c₀, c₁, fn, is, hrun, hext, hphis, hcode⟩ := h.code
  have hnodes := (hg.overflow bb hbb).2
  refine ⟨c₀, c₁, fn, is, hg.target ▸ hrun, hext, hnodes ▸ hphis, ?_⟩
  rw [hnodes]
  exact hcode.trans (hg.block_grows bb)

/-- Each block of a function that grows is the beginning of what it becomes. -/
theorem block_extends {F F' : Codegen.Body} {l : List (BBId × Inst BBId Sym)}
    (h : F'.insts = F.insts ++ l) (b : BBId) : F.block b <+: F'.block b :=
  ⟨_, by rw [IR.Body.block, IR.Body.block, h, List.filterMap_append]⟩

/-- The code of the overflow block when it is made: the code that fetches the address, the call
with the phi nodes as its arguments, and the return. -/
theorem newOverflowBB_code {c c' : Context} {bb : BBId} (h : newOverflowBB c = .ok (bb, c')) :
    ∃ (c₀ c₁ : Context) (fn : Val) (is : List (Nat × Op Sym)),
      (fetchRaise c.target).run c₀ = .ok (fn, c₁) ∧ Ext c₀ c₁ is ∧
      c₀.nextId = c.nextId + c.target.numMachineRegs ∧
      c'.body.insts = c.body.insts ++ instsAt bb is
        ++ [(bb, .exitCall false fn ((List.range' c.nextId c.target.numMachineRegs).map
            fun phi => .inst phi ptrTy)), (bb, .term .retVoid)] := by
  unfold newOverflowBB at h
  obtain ⟨srcBB, c₁, h₁, h⟩ := CodegenM.bind_ok.mp h
  cases h₁
  obtain ⟨t, c₁, h₁, h⟩ := CodegenM.bind_ok.mp h
  cases h₁
  obtain ⟨bb', c₁, h₁, h⟩ := CodegenM.bind_ok.mp h
  cases h₁
  obtain ⟨⟨⟩, c₁, h₁, h⟩ := CodegenM.bind_ok.mp h
  cases h₁
  obtain ⟨phis, c₁, h₁, h⟩ := CodegenM.bind_ok.mp h
  rw [createPHIs_replicate_ok] at h₁
  cases h₁
  obtain ⟨⟨⟩, c₁, h₁, h⟩ := CodegenM.bind_ok.mp h
  cases h₁
  obtain ⟨raiseFn, c₂, h₂, h⟩ := CodegenM.bind_ok.mp h
  obtain ⟨fn, c₃, h₃, h⟩ := CodegenM.bind_ok.mp h
  obtain ⟨⟨⟩, c₄, h₄, h⟩ := CodegenM.bind_ok.mp h
  cases h₄
  obtain ⟨⟨⟩, c₄, h₄, h⟩ := CodegenM.bind_ok.mp h
  cases h₄
  obtain ⟨⟨⟩, c₄, h₄, h⟩ := CodegenM.bind_ok.mp h
  cases h₄
  obtain ⟨rfl, rfl⟩ := CodegenM.pure_ok.mp h
  have hrun : (fetchRaise c.target).run _ = .ok (fn, c₃) :=
    run_bind_ok.mpr ⟨raiseFn, c₂, h₂, h₃⟩
  obtain ⟨is, hext⟩ := ext_of_run hrun
  refine ⟨_, c₃, fn, is, hrun, hext, rfl, ?_⟩
  rw [hext.frame]
  simp [Context.append, instsAt]

/-- A block that was not used before has this code and no other. -/
theorem raisesAt_of_new {c c' : Context} {bb : BBId}
    (hunused : ∀ b, (∃ m, c.nextBB ≤ m ∧ b = .new m) → Unused c b)
    (h : newOverflowBB c = .ok (bb, c')) : RaisesAt c' bb := by
  obtain ⟨c₀, c₁, fn, is, hrun, hext, hid, hinsts⟩ := newOverflowBB_code h
  obtain ⟨rfl, is', fn', -, hc'⟩ := newOverflowBB_ok h
  have hempty : c.body.block (.new c.nextBB) = [] := by
    rw [Body.block, List.filterMap_eq_nil_iff]
    intro p hp
    rw [if_neg ((hunused _ ⟨c.nextBB, Nat.le_refl _, rfl⟩).insts p hp)]
  have hnodes : c'.overflowPhiNodes = List.range' c.nextId c.target.numMachineRegs := by rw [hc']
  have htarget : c'.target = c.target := by rw [hc']
  refine ⟨c₀, c₁, fn, is, htarget ▸ hrun, hext, fun phi hphi => ?_, ?_⟩
  · rw [hnodes, List.mem_range'_1] at hphi
    rw [hid]
    exact hphi.2
  · rw [hnodes]
    simp only [Body.block, instsAt, hinsts, List.filterMap_append, List.filterMap_map] at hempty ⊢
    rw [hempty]
    simp

/-- The overflow block, if there is one, calls the handler. There is one for the whole cluster. -/
def Raises (c : Context) : Prop := ∀ bb, c.overflowBB = some bb → RaisesAt c bb

/-- The property stays as long as there is no new overflow block. -/
theorem Raises.of_grows {R : BBId → Prop} {c c' : Context} (h : Raises c) (hg : Grows R c c')
    (heq : c'.overflowBB = c.overflowBB) : Raises c' := by
  intro bb hbb
  rw [heq] at hbb
  exact (h bb hbb).of_grows hg hbb

/-- A head makes the overflow block, or leaves it as it is. The blocks that it makes besides are
different ones, since they have different numbers. -/
theorem Raises.head {frag : Nat} {s : Stm .cpp} {path : List Nat} {c c₁ : Context}
    (hr : Ready (.stm frag s path) c) (hi : Raises c) (h : s.head frag path c = .ok ((), c₁)) :
    Raises c₁ := by
  intro bb hbb
  have hadv := Stm.head_advances h (hr.old _ rfl)
  cases hmade : c.overflowBB with
  | some bb' =>
      obtain rfl : bb' = bb :=
        Option.some.inj ((hadv.grows.overflow bb' hmade).1.symm.trans hbb)
      exact (hi _ hmade).of_grows hadv.grows hmade
  | none =>
      rcases Stm.head_cases (hr.old _ rfl) h with
        ⟨hstay, -⟩ | ⟨c₂, c₃, obit, res, hstay, hadv', hbr, lv, hbind⟩
      · rw [hstay.overflowBB, hmade] at hbb
        cases hbb
      · cases hbind
        obtain ⟨-, bb', c₄, ics, hovflw, hc₃, -⟩ := overflowBranch_ok hbr
        have hnone : c₂.overflowBB = none := hstay.overflowBB.trans hmade
        rcases theOverflowBB_ok hovflw with ⟨hsome, -⟩ | ⟨-, hnew⟩
        · rw [hnone] at hsome
          cases hsome
        · have hat := raisesAt_of_new (fun b hb => ?_) hnew
          · have hbb' : c₄.overflowBB = some bb' := (theOverflowBB_grows hovflw).2.2.2.2.1
            obtain rfl : bb' = bb := by
              rw [hc₃] at hbb
              exact Option.some.inj (hbb'.symm.trans hbb)
            obtain ⟨c₀, c₁, fn, is, hrun, hext, hphis, hcode⟩ := hat.code
            subst hc₃
            exact ⟨c₀, c₁, fn, is, hrun, hext, hphis, hcode.trans (block_extends rfl _)⟩
          · obtain ⟨m, hm, rfl⟩ := hb
            have hm' : c₂.nextBB + 1 ≤ m := hm
            have hfresh := hr.unused_of_head hadv' (.inr ⟨m, by omega, rfl⟩)
            exact ⟨hfresh.insts, hfresh.incoming⟩

/-- All that is generated keeps the property, by induction on what is generated. -/
theorem Emits.raises {code : Code} {c c' : Context} (he : Emits code c c') :
    Ready code c → Raises c → Raises c' := by
  induction he with
  | stop hk h => exact fun hr hi => hi.head hr h
  | next hk h _ ih => exact fun hr hi => ih (hr.next hk h) (hi.head hr h)
  | arms hk h _ ih => exact fun hr hi => ih (hr.arms h) (hi.head hr h)
  | noArm => exact fun _ hi => hi
  | arm harm _ iharm ihrest =>
      intro hr hi
      exact ihrest (hr.laterArm harm) (iharm hr.arm
        (hi.of_grows (grows_armStart (R := fun _ => False) _ _ _ _ _) rfl))
  | noFrag => exact fun _ hi => hi
  | @frag f fs i c c₁ c₂ c' hbb hstart hbody _ ihbody ihrest =>
      intro hr hi
      obtain ⟨hadv, hstay⟩ := fragStart_ok hbb hstart
      have hi₁ := (hi.of_grows (grows_atFrag (R := fun _ => False) c _) rfl).of_grows hadv.grows
        hstay.overflowBB
      exact ihrest (hr.laterFrag hbb hstart hbody) (ihbody (hr.frag hbb hstart) hi₁)

/-- The overflow block at the end of a run calls the handler: there is none at the start. -/
theorem ClusterRun.raises {cf : ClusterFn} {c C d : Context} {fs : List FragBB}
    (h : ClusterRun cf c C fs d) : Raises C := by
  refine h.emits.raises h.ready fun bb hbb => ?_
  rw [h.inits.frame] at hbb
  cases hbb

/-! ### Execution -/

/-- The address of the handler is fetched, and nothing else happens. -/
theorem does_fetchRaise (act : Activation Sym) (t : TargetInfo) (c : Context) (s : State) :
    (fetchRaise t).Does act c s fun v c' s' => Quiet c c' s s' ∧
      Is act c' s' v (s.load (act.host.sp + BitVec.ofInt 64 t.raiseOvflwOffset) 8) := by
  refine .bind (.bind (.stkAddr fun adr c₁ s₁ hq₁ hadr hta => ?_))
  refine .inst (w := s.load (act.host.sp + BitVec.ofInt 64 t.raiseOvflwOffset) 8) ?_ ?_
    fun v c₂ s₂ hq₂ hv htv => ?_
  · simp [Op.wellTyped, hta, Ty.isPointerTy]
  · have hload : ∀ a, s₁.load a 8 = s.load a 8 := fun a => by rw [State.load, State.load, hq₁.mem]
    simp [Op.step, hadr.eval, Ty.bytes, hload]
  · exact .createCast hv (fun _ => rfl) (fun hne => absurd htv hne)
      fun v' c' s' hq hv' _ => ⟨hq₁.trans (hq₂.trans hq), hv'⟩

/-- Control leaves the function by a call of the handler with the registers. The phi nodes got
their values on the way into the block, and the code before the call does not change them. -/
theorem RaisesAt.final {act : Activation Sym} {C : Context} {bb : BBId} {s : State}
    {ws : CMRegId → Word} (h : RaisesAt C bb) (hat : OverflowAt C bb)
    (hregs : ∀ (i : Nat) r, C.target.machineRegs[i]? = some r →
      ∃ phi, C.overflowPhiNodes[i]? = some phi ∧ s.regs phi = [ws r]) :
    ∃ cfg, Reaches act C.body ⟨bb, C.body.block bb, s⟩ cfg ∧
      cfg.st.mem = s.mem ∧ cfg.st.trace = s.trace ∧
      IR.final act cfg = some (.call false
        (s.load (act.host.sp + BitVec.ofInt 64 C.target.raiseOvflwOffset) 8)
        (C.target.machineRegs.map fun r => some (ws r))) := by
  obtain ⟨c₀, c₁, fn, is, hrun, hext, hphis, rest, hcode⟩ := h.code
  obtain ⟨fn', c₁', s', hexec, hq, hfn⟩ := does_fetchRaise act C.target c₀ s
  obtain ⟨hrun', is', hext', -, hsteps⟩ := exec_eq_some.mp hexec
  rw [hrun] at hrun'
  cases hrun'
  obtain rfl := hext.unique hext'
  refine ⟨⟨bb, .exitCall false fn (C.overflowPhiNodes.map fun phi => .inst phi ptrTy) ::
    .term .retVoid :: rest, s'⟩, ?_, hq.mem, hq.trace, ?_⟩
  · rw [← hcode, List.append_assoc]
    exact reaches_steps hsteps (keeps_drop_of_eq hq.trace)
  · have hargs : (C.overflowPhiNodes.map fun phi => (Value.inst phi ptrTy : Val)).map
        (·.eval act s'.regs) = C.target.machineRegs.map fun r => some (ws r) := by
      apply List.ext_getElem?
      intro i
      simp only [List.getElem?_map]
      cases hr : C.target.machineRegs[i]? with
      | some r =>
          obtain ⟨phi, hphi, hval⟩ := hregs i r hr
          have hlt := hphis phi (List.mem_of_getElem? hphi)
          rw [hphi]
          show some ((s'.regs phi).head?) = _
          rw [hq.regs phi hlt, hval]
          rfl
      | none =>
          have hnone : C.overflowPhiNodes[i]? = none := by
            rw [List.getElem?_eq_none_iff] at hr ⊢
            rw [hat.length]
            exact hr
          rw [hnone]
          rfl
    show (fn.eval act s'.regs >>= fun f => some (Exit.call false f _)) = _
    rw [hfn.eval, hargs]
    rfl

end SmlnjCfg.Codegen
