import SmlnjCfg.Codegen.Jump

/-!
# `SmlnjCfg.Codegen.Leave`: calls that do not come back

An `APPLY` or a `THROW` ends with a tail call. An integer operation whose result does
not fit ends with the call of the handler in the overflow block, and otherwise it goes
on in a block of its own.

* `Leaves`: control leaves by a call with the memory of the machine.
* `Compiled.apply`, `Compiled.throw`: tail calls.
* `Compiled.arith`: the two ways out of an integer operation.
-/

set_option autoImplicit false

namespace SmlnjCfg.Codegen

open Cfg Gen IR

variable {act : Activation Sym} {M : Machine} {ρ : Env} {σ : MState} {cf : ClusterFn}
  {c C d₀ : Context} {fs : List FragBB}

/-- Control leaves at `q` by a call, with the memory and the stores of the machine. -/
structure Leaves (act : Activation Sym) (isTail : Bool) (fn : Word) (args : List (Option Word))
    (σ : MState) (q : IR.Config BBId Sym) : Prop where
  final : IR.final act q = some (.call isTail fn args)
  mem : q.st.mem = σ.mem
  trace : q.st.trace = σ.trace

/-- Control does not go on. -/
theorem Leaves.next {isTail : Bool} {fn : Word} {args : List (Option Word)} {F : Codegen.Body}
    {q : IR.Config BBId Sym} (h : Leaves act isTail fn args σ q) : IR.next act F q = none := by
  have hfinal := h.final
  unfold IR.final at hfinal
  unfold IR.next
  split at hfinal
  next hrest => simp only [hrest]
  next => cases hfinal
  next => cases hfinal
  next => cases hfinal

namespace Compiled

variable {frag : Nat} {path : List Nat} {d : Context} {s : State}

/-! ### Tail calls -/

/-- The call at the end of a block. -/
theorem leave {c₁ : Context} {s₁ : State} {u : Val} {us : List Val} {fn : Word}
    {ws : List (Option Word)} (hst : Straight act d c₁ s s₁)
    (hg : Grows (Unused ((c₁.append (.exitCall true u us)).append (.term .retVoid)))
      ((c₁.append (.exitCall true u us)).append (.term .retVoid)) C)
    (hu : u.eval act s₁.regs = some fn) (hus : us.map (·.eval act s₁.regs) = ws)
    (hmem : s₁.mem = σ.mem) (htrace : s₁.trace = σ.trace) (hsame : s₁.trace = s.trace) :
    ∃ q, Reaches act C.body (d.config C s) q ∧ Leaves act true fn ws σ q := by
  have hend : [(c₁.curBB, (.exitCall true u us : Inst BBId Sym)), (c₁.curBB, .term .retVoid)].filterMap
      (fun p => if p.1 = c₁.curBB then some p.2 else none)
      = [.exitCall true u us, .term .retVoid] := by simp
  have hblock := block_eq_of_ends (List.append_assoc ..) hend hg
  refine ⟨_, hst.reaches_quiet hsame ⟨_, hblock.symm⟩, ?_, hmem, htrace⟩
  rw [Context.config, Context.rest_eq hblock]
  show (u.eval act s₁.regs >>= fun f => some (Exit.call true f _)) = _
  rw [hu, hus]
  rfl

/-- The code of an `APPLY` is a tail call with the words of the arguments. -/
theorem apply (h : Compiled act M cf c C fs d₀) {fn : Exp .cpp} {args : List (Exp .cpp)}
    {tys : List Cfg.Ty} {q : Cfg.Config}
    (hv : Visits (.frags fs 0, d₀) (.stm frag (.APPLY fn args tys) path, d))
    (ht : Tracks act M ρ σ d s) (hstep : (Stm.APPLY fn args tys).eval M ρ σ = some q) :
    ∃ f ws q', q = .exit true f ws σ ∧ Reaches act C.body (d.config C s) q' ∧
      Leaves act true f ws σ q' := by
  obtain ⟨⟨f, kind, tys'⟩, htarget, hleave⟩ := Option.bind_eq_some_iff.mp hstep
  obtain ⟨vs, hvs, hleave⟩ := Option.bind_eq_some_iff.mp hleave
  obtain ⟨⟨hlen, hwords⟩, ⟨⟩⟩ := Option.ite_none_right_eq_some.mp hleave
  obtain ⟨d', hhead, hg⟩ := h.head_stop hv rfl
  simp only [Stm.head, Stm.codegen] at hhead
  obtain ⟨⟨u, fnTy, fk⟩, c₁, h₁, h₂⟩ := CodegenM.bind_ok.mp hhead
  obtain ⟨c₂, c₃, h₃, h₄⟩ := CodegenM.bind_ok.mp h₂
  cases h₃
  obtain ⟨⟨⟩, c₃, h₅, h₆⟩ := CodegenM.bind_ok.mp h₄
  obtain ⟨-, rfl⟩ := run_assert_ok.mp h₅
  obtain ⟨us, c₄, h₇, h₈⟩ := CodegenM.bind_ok.mp h₆
  cases h₈
  obtain ⟨s₁, hst₁, -, hq₁, hu, rfl, k, needs, rfl, rfl⟩ := (does_callee ht htarget).of_run h₁
  obtain ⟨s₂, hst₂, hl₂, hq₂, hus⟩ := (does_setupStdArgs hlen hwords (ht.quiet hq₁) hvs).of_run h₇
  have hq := hq₁.trans hq₂
  have hunused : (if Tagged.con k = .con FragKind.STD_CONT then 2 else 0) = k.unused := by
    cases k <;> rfl
  obtain ⟨q', hreach, hleaves⟩ := leave (hst₁.trans hst₂) hg (hu.later hl₂).eval hus
    (hq.mem.trans ht.mem) (hq.trace.trans ht.trace) hq.trace
  exact ⟨f, _, q', by rw [hunused], hreach, hleaves⟩

/-- The code of a `THROW` is a tail call of a continuation. -/
theorem throw (h : Compiled act M cf c C fs d₀) {fn : Exp .cpp} {args : List (Exp .cpp)}
    {tys : List Cfg.Ty} {q : Cfg.Config}
    (hv : Visits (.frags fs 0, d₀) (.stm frag (.THROW fn args tys) path, d))
    (ht : Tracks act M ρ σ d s) (hstep : (Stm.THROW fn args tys).eval M ρ σ = some q) :
    ∃ f ws q', q = .exit true f ws σ ∧ Reaches act C.body (d.config C s) q' ∧
      Leaves act true f ws σ q' := by
  obtain ⟨⟨f, kind, tys'⟩, htarget, hleave⟩ := Option.bind_eq_some_iff.mp hstep
  obtain ⟨hcont, hleave⟩ := Option.ite_none_right_eq_some.mp hleave
  obtain rfl : kind = .con .STD_CONT := hcont
  obtain ⟨vs, hvs, hleave⟩ := Option.bind_eq_some_iff.mp hleave
  obtain ⟨⟨hlen, hwords⟩, ⟨⟩⟩ := Option.ite_none_right_eq_some.mp hleave
  obtain ⟨d', hhead, hg⟩ := h.head_stop hv rfl
  simp only [Stm.head, Stm.codegen] at hhead
  obtain ⟨⟨u, fnTy, fk⟩, c₁, h₁, h₂⟩ := CodegenM.bind_ok.mp hhead
  obtain ⟨c₂, c₃, h₃, h₄⟩ := CodegenM.bind_ok.mp h₂
  cases h₃
  obtain ⟨⟨⟩, c₃, h₅, h₆⟩ := CodegenM.bind_ok.mp h₄
  obtain ⟨-, rfl⟩ := run_assert_ok.mp h₅
  obtain ⟨us, c₄, h₇, h₈⟩ := CodegenM.bind_ok.mp h₆
  cases h₈
  obtain ⟨s₁, hst₁, -, hq₁, hu, -, k, needs, ⟨⟩, rfl⟩ := (does_callee ht htarget).of_run h₁
  obtain ⟨s₂, hst₂, hl₂, hq₂, hus⟩ := (does_setupStdArgs hlen hwords (ht.quiet hq₁) hvs).of_run h₇
  have hq := hq₁.trans hq₂
  obtain ⟨q', hreach, hleaves⟩ := leave (hst₁.trans hst₂) hg (hu.later hl₂).eval hus
    (hq.mem.trans ht.mem) (hq.trace.trans ht.trace) hq.trace
  exact ⟨f, _, q', rfl, hreach, hleaves⟩

end Compiled

/-! ### Integer operations -/

/-- The registers stay where they are. -/
theorem Arith.head_regState {frag : Nat} {op : CfgPrim.Arithop} {sz : Int}
    {args : List (Exp .cpp)} {param : Param} {k : Stm .cpp} {path : List Nat} {d d' : Context}
    (h : Stm.head frag (.ARITH (.ARITH (.con op) sz) args param k) path d = .ok ((), d')) :
    d'.regState = d.regState := by
  obtain ⟨vs, c₁, p, c₂, v, c₃, hargs, hoperands, hins, hcode⟩ := CfgPrim.Arith.head_ok h
  have h₁ := ((Exp.plain_args args).sameEnv hargs).regState
  have h₂ := ((CfgPrim.plain_operands sz vs).sameEnv hoperands).regState
  have h₃ : c₃.regState = c₂.regState := by
    rcases hcode with ⟨o, q, c₄, -, htrap, -, hbr⟩ | ⟨-, hdiv⟩
    · obtain ⟨-, bb, c₅, ics, hovflw, rfl, -⟩ := overflowBranch_ok hbr
      exact (theOverflowBB_grows hovflw).2.2.1.trans
        ((CfgPrim.plain_trapOp _ _ _ _).sameEnv htrap).regState
    · exact ((Plain.createBin _ _ _).sameEnv hdiv).regState
  cases hins
  exact h₃.trans (h₂.trans h₁)

namespace Compiled

variable {frag : Nat} {path : List Nat} {d : Context} {s : State}

/-- The code of an integer operation is exact, whatever its operator. -/
theorem arithExact (h : Compiled act M cf c C fs d₀) {op : CfgPrim.Arithop}
    {args : List (Exp .cpp)} {param : Param} {k : Stm .cpp} {a b : MLVal} {r : Int}
    (hv : Visits (.frags fs 0, d₀)
      (.stm frag (.ARITH (.ARITH (.con op) 64) args param k) path, d))
    (ht : Tracks act M ρ σ d s) (hvs : Exp.evalArgs M ρ σ args = some [a, b])
    (hr : op.denote a.word.toInt b.word.toInt = some r)
    (hmin : ¬ (op.divides = true ∧ a.word.toInt = -2 ^ 63 ∧ b.word.toInt = -1)) :
    CfgPrim.Arith.Exact act d C s σ.reg frag (.ARITH (.ARITH (.con op) 64) args param k) path 64
      param r := by
  have hvisit := h.visited hv
  have hfree : d.vMap param.name = none :=
    (h.fresh h.unique hv).2 _ (by rw [Code.binders, Stm.binders_eq]; exact List.mem_cons_self)
  obtain ⟨us, c₁, s₁, hexec, -, hus⟩ := Exp.does_evalArgs args ht hvs
  obtain ⟨u, w, hu, hw, rfl⟩ : ∃ u w, Holds act c₁ s₁ u a ∧ Holds act c₁ s₁ w b ∧ us = [u, w] := by
    obtain _ | ⟨hu, _ | ⟨hw, _ | _⟩⟩ := hus
    exact ⟨_, _, hu, hw, rfl⟩
  have hsigned : ∀ w : Word, CfgPrim.signedOf 64 w = w.toInt := fun w =>
    congrArg BitVec.toInt (BitVec.setWidth_eq w)
  have hops : CfgPrim.Arith.Supplies act d s 64 args a.word.toInt b.word.toInt :=
    ⟨u, w, a.word, b.word, c₁, s₁, hexec, hu.cases, hu.is.eval, hsigned _, hw.cases, hw.is.eval,
      hsigned _⟩
  cases ho : op.overflowOp with
  | some o =>
      refine CfgPrim.Arith.exact_trap hvisit (.inr rfl) ho hops hr (fun reg u hu => ?_)
        fun _ => .inl hfree
      cases hreg : M.target.isMachineReg reg with
      | true =>
          obtain ⟨u', hu', hv'⟩ := ht.reg reg hreg
          rw [hu] at hu'
          cases hu'
          exact hv'.is.eval
      | false =>
          rw [ht.stack reg hreg] at hu
          cases hu
  | none =>
      have hdiv : op.divides = true := by
        rw [CfgPrim.Arithop.divides, ho]
        rfl
      exact CfgPrim.Arith.exact_div hvisit hdiv hops hr (fun hm => hmin hm) fun _ => .inl hfree

/-- The code of an integer operation goes on with its result, or raises `Overflow`. -/
theorem arith (h : Compiled act M cf c C fs d₀) {op : CfgPrim.Arithop} {args : List (Exp .cpp)}
    {param : Param} {k : Stm .cpp} {a b : MLVal} {q : Cfg.Config}
    (hv : Visits (.frags fs 0, d₀)
      (.stm frag (.ARITH (.ARITH (.con op) 64) args param k) path, d))
    (ht : Tracks act M ρ σ d s) (hvs : Exp.evalArgs M ρ σ args = some [a, b])
    (hstep : arithStep M ρ σ op a.word b.word param k = some q) :
    (∃ v d' s', q = .run k (ρ.set param.name v) σ ∧
      Visits (.frags fs 0, d₀) (.stm frag k path, d') ∧
      Tracks act M (ρ.set param.name v) σ d' s' ∧
      Reaches act C.body (d.config C s) (d'.config C s')) ∨
    ∃ f ws q', q = .exit false f ws σ ∧ Reaches act C.body (d.config C s) q' ∧
      Leaves act false f ws σ q' := by
  obtain ⟨r, hr, hstep⟩ := Option.bind_eq_some_iff.mp hstep
  obtain ⟨hmin, hstep⟩ := Option.ite_none_left_eq_some.mp hstep
  obtain ⟨d', hhead, hexact⟩ := h.arithExact hv ht hvs hr hmin
  split at hstep
  next hfit =>
    cases hstep
    rw [if_pos (show Bits.Fits (iBits 64) r from hfit)] at hexact
    obtain ⟨s', hreach, hl, hmem, htrace, u, w, hu, hty, hw, hwr⟩ := hexact
    have hv' : Visits (.frags fs 0, d₀) (.stm frag k path, d') := hv.tail (.next rfl hhead)
    have hwr' : w = BitVec.ofInt 64 r := by
      rw [← hwr, CfgPrim.signedOf]
      exact (BitVec.ofInt_toInt (x := w)).symm
    refine .inl ⟨_, d', s', rfl, hv', ⟨h.linkedAt hv', fun x v hx => ?_, fun r hr => ?_,
      fun r hr => ?_, hmem.trans ht.mem, htrace.trans ht.trace⟩, hreach⟩
    · by_cases hxp : x = param.name
      · subst hxp
        rw [Env.set_self] at hx
        cases hx
        exact ⟨u, hu, ⟨(h.visited hv').computed.vMap _ _ hu, hwr' ▸ hw⟩, hty⟩
      · rw [Env.set_of_ne _ _ hxp] at hx
        obtain ⟨u', hu', hx'⟩ := ht.env x v hx
        have hsame := Stm.head_binds hhead x (.inr (by simpa [Stm.binds] using hxp))
        exact ⟨u', hsame.trans hu', hx'.later hl⟩
    · obtain ⟨u', hu', hr'⟩ := ht.reg r hr
      exact ⟨u', by rw [Arith.head_regState hhead, hu'], hr'.later hl⟩
    · rw [Arith.head_regState hhead]
      exact ht.stack r hr
  next hfit =>
    cases hstep
    rw [if_neg (show ¬ Bits.Fits (iBits 64) r from hfit)] at hexact
    obtain ⟨bb, s', hat, hreach, hmem, htrace, hphis⟩ := hexact
    obtain ⟨q', hreach', hmem', htrace', hfinal⟩ :
        ∃ q', Reaches act C.body ⟨bb, C.body.block bb, s'⟩ q' ∧ _ :=
      (h.raises bb hat.made).final hat hphis
    refine .inr ⟨_, _, q', rfl, hreach.trans hreach', ?_, hmem'.trans (hmem.trans ht.mem),
      htrace'.trans (htrace.trans ht.trace)⟩
    have hload : s'.load (M.slot M.target.raiseOvflwOffset) 8
        = σ.load (M.slot M.target.raiseOvflwOffset) := by
      rw [State.load, hmem, ht.mem]
      rfl
    rw [hfinal, h.linkedEnd.target, ht.slot, hload, Machine.machineWords, List.map_map]
    rfl

end Compiled

end SmlnjCfg.Codegen
