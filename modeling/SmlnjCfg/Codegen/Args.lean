import SmlnjCfg.Codegen.Effects
import SmlnjCfg.Codegen.Raise

/-!
# `SmlnjCfg.Codegen.Args`: the code of arguments

Straight-line code of a statement with the bindings in between, and the arguments
that a statement passes: the special registers, unused arguments, and the values
of expressions in the representation of the parameters.

* `Straight`: code that is generated and executed within one block.
* `Tracks.bind`: a new variable.
* `does_createArgs`, `does_setupStdArgs`, `does_rootArgs`: argument lists.
* `straight_addFragIncoming`: the values for the phi nodes of a fragment.
-/

set_option autoImplicit false

namespace SmlnjCfg.Codegen

open Cfg Gen IR

variable {α : Type} {act : Activation Sym} {M : Machine} {ρ : Env} {σ : MState} {c c' : Context}
  {s s' : State}

/-! ### Code within a block -/

/-- The code between `c` and `c'` is in the current block, and takes `s` to `s'`. -/
structure Straight (act : Activation Sym) (c c' : Context) (s s' : State) : Prop where
  curBB : c'.curBB = c.curBB
  steps : ∃ is, c'.body.insts = c.body.insts ++ instsAt c.curBB is ∧ IR.steps act is s = some s'

namespace Straight

/-- No code at all. -/
theorem refl (c : Context) (s : State) : Straight act c c s s := ⟨rfl, [], by simp [instsAt], rfl⟩

/-- Nothing is generated where the block and the instructions stay the same; the rest of the
context may change. -/
theorem of_eq (s : State) (hcur : c'.curBB = c.curBB) (hinsts : c'.body.insts = c.body.insts) :
    Straight act c c' s s := ⟨hcur, [], by simp [instsAt, hinsts], rfl⟩

/-- Code after code, in the one block. -/
theorem trans {c₁ : Context} {s₁ : State} (h : Straight act c c₁ s s₁)
    (h' : Straight act c₁ c' s₁ s') : Straight act c c' s s' := by
  obtain ⟨is, his, hs⟩ := h.steps
  obtain ⟨js, hjs, hs'⟩ := h'.steps
  refine ⟨h'.curBB.trans h.curBB, is ++ js, ?_, ?_⟩
  · rw [hjs, his, h.curBB, instsAt, instsAt, instsAt, List.map_append, List.append_assoc]
  · rw [steps_append, hs]
    exact hs'

/-- Code that is generated and executed at once is such code: the instructions that it added are
those that were executed. -/
theorem of_exec {g : Gen α} {a : α} (h : g.exec act c s = some (a, c', s')) :
    Straight act c c' s s' := by
  obtain ⟨hrun, is, hext, -, hsteps⟩ := exec_eq_some.mp h
  refine ⟨curBB_of_run hrun, is, ?_, hsteps⟩
  rw [hext.frame]
  rfl

/-- The code comes before what is added to the block later on, so a block is executed from left to
right in the order in which it is generated. -/
theorem rest_eq {C : Context} (h : Straight act c c' s s')
    (hC : c'.body.block c'.curBB <+: C.body.block c'.curBB) :
    ∃ is, c.rest C = is.map (fun p => .op p.1 p.2) ++ c'.rest C ∧
      IR.steps act is s = some s' := by
  obtain ⟨is, his, hsteps⟩ := h.steps
  have hblock : c'.body.block c'.curBB
      = c.body.block c.curBB ++ is.map fun p => .op p.1 p.2 := by
    have hmap : (instsAt c.curBB is).filterMap (fun p => if p.1 = c.curBB then some p.2 else none)
        = is.map fun p => .op p.1 p.2 := by
      rw [instsAt, List.filterMap_map]
      simp
    rw [h.curBB, Body.block, his, List.filterMap_append, hmap]
    rfl
  refine ⟨is, Context.rest_eq ?_, hsteps⟩
  rw [← List.append_assoc, ← hblock, ← Context.block_eq_append hC, h.curBB]

/-- The code is executed in the function, if it stores to nothing that is promised to stay
the same. -/
theorem reaches {C : Context} (h : Straight act c c' s s')
    (hkeep : keeps act.host.fixed (s'.trace.drop s.trace.length) = true)
    (hC : c'.body.block c'.curBB <+: C.body.block c'.curBB) :
    Reaches act C.body (c.config C s) (c'.config C s') := by
  obtain ⟨is, hrest, hsteps⟩ := h.rest_eq hC
  show Reaches act C.body ⟨c.curBB, c.rest C, s⟩ ⟨c'.curBB, c'.rest C, s'⟩
  rw [hrest, h.curBB]
  exact reaches_steps hsteps hkeep

/-- Code that does not store is executed in the function, since it cannot break the promise. -/
theorem reaches_quiet {C : Context} (h : Straight act c c' s s') (htrace : s'.trace = s.trace)
    (hC : c'.body.block c'.curBB <+: C.body.block c'.curBB) :
    Reaches act C.body (c.config C s) (c'.config C s') := h.reaches (keeps_drop_of_eq htrace) hC

/-- Where the block is left does not depend on how much of the code is done: the jump at the end
sees the same state from either point. -/
theorem leaveBlock {C : Context} (h : Straight act c c' s s')
    (htrace : s'.trace = s.trace) (hC : c'.body.block c'.curBB <+: C.body.block c'.curBB) :
    IR.leaveBlock act C.body c.curBB (c.rest C) s
      = IR.leaveBlock act C.body c'.curBB (c'.rest C) s' := by
  obtain ⟨is, hrest, hsteps⟩ := h.rest_eq hC
  rw [hrest, h.curBB]
  exact leaveBlock_steps hsteps (keeps_drop_of_eq htrace)

end Straight

/-- Code that was generated is the code that is executed. `Does` gives some run of the generator,
and a run has one result. -/
theorem Gen.Does.of_run {g : Gen α} {a : α} {Q : α → Context → State → Prop}
    (h : g.Does act c s Q) (hrun : g.run c = .ok (a, c')) :
    ∃ s', Straight act c c' s s' ∧ Later c c' s s' ∧ Q a c' s' := by
  obtain ⟨a', c₁, s₁, hexec, hQ⟩ := h
  have heq := (exec_eq_some.mp hexec).1
  rw [hrun] at heq
  cases heq
  exact ⟨s₁, .of_exec hexec, later_of_exec hexec, hQ⟩

/-- Straight-line code binds no variable. Only a statement does. -/
theorem vMap_of_run {g : Gen α} {a : α} (h : g.run c = .ok (a, c')) : c'.vMap = c.vMap := by
  obtain ⟨is, hext⟩ := ext_of_run h
  rw [hext.frame]

/-! ### Variables -/

/-- The map of variables after a new binding of a name that had none. -/
theorem insertVal_self {lv : LVar} {u : Val} (h : insertVal lv u c = .ok ((), c'))
    (hfresh : c.vMap lv = none) (x : LVar) :
    c'.vMap x = if x = lv then some u else c.vMap x := by
  cases h
  simp [hfresh]

/-- A variable that had no value. Where the name is bound already the source keeps the old value,
which is why it has to be fresh. -/
theorem Tracks.bind {lv : LVar} {u : Val} {v : MLVal} (ht : Tracks act M ρ σ c s)
    (hu : Holds act c s u v) (hfresh : c.vMap lv = none) (h : insertVal lv u c = .ok ((), c')) :
    Tracks act M (ρ.set lv v) σ c' s ∧ Straight act c c' s s ∧ Later c c' s s := by
  have hmap := insertVal_self h hfresh
  have hctx : c' = { c with vMap := c'.vMap } := by
    cases h
    rfl
  have hl : Later c c' s s := by
    rw [hctx]
    exact ⟨Nat.le_refl _, fun _ _ => rfl⟩
  have hregs : c'.regState = c.regState := by rw [hctx]
  refine ⟨⟨ht.linked.of_eq (by rw [hctx]) (by rw [hctx]), fun x w hx => ?_, fun r hr => ?_,
    fun r hr => ?_, ht.mem, ht.trace⟩, .of_eq s (by rw [hctx]) (by rw [hctx]), hl⟩
  · by_cases hlv : x = lv
    · subst hlv
      rw [Env.set_self] at hx
      cases hx
      exact ⟨u, by rw [hmap, if_pos rfl], hu.later hl⟩
    · rw [Env.set_of_ne _ _ hlv] at hx
      obtain ⟨u', hu', hw⟩ := ht.env x w hx
      exact ⟨u', by rw [hmap, if_neg hlv, hu'], hw.later hl⟩
  · obtain ⟨u', hu', hw⟩ := ht.reg r hr
    exact ⟨u', by rw [hregs, hu'], hw.later hl⟩
  · rw [hregs]
    exact ht.stack r hr

/-! ### Argument lists -/

/-- The special registers as arguments: the values of the register state stand for the words of
the machine, in order. -/
theorem does_addExtraArgs (ht : Tracks act M ρ σ c s) {regs : List CMRegId}
    (hregs : ∀ r ∈ regs, M.target.isMachineReg r = true) :
    (addExtraArgs c.regState regs).Does act c s fun us c' s' => c' = c ∧ s' = s ∧
      List.Forall₂ (Holds act c s) us ((regs.map σ.reg).map .ml) := by
  induction regs with
  | nil => exact .pure ⟨rfl, rfl, .nil⟩
  | cons r regs ih =>
      obtain ⟨hr, hrest⟩ := List.forall_mem_cons.mp hregs
      obtain ⟨u, hu, hv⟩ := ht.reg r hr
      refine .bind (.deref hu (.bind ((ih hrest).mono fun us c' s' h => ?_)))
      obtain ⟨rfl, rfl, hus⟩ := h
      exact .pure ⟨rfl, rfl, .cons hv hus⟩

/-- The implicit arguments: the special registers, and undefined values in the unused places of a
continuation. -/
theorem does_createArgs (ht : Tracks act M ρ σ c s) (kind : FragKind) :
    (createArgs (.con kind)).Does act c s fun us c' s' => c' = c ∧ s' = s ∧ ∃ extra,
      us = extra ++ List.replicate kind.unused (.undef ptrTy) ∧
      List.Forall₂ (Holds act c s) extra ((M.machineWords σ).map .ml) := by
  have hpc : c.target.hasPCRel = true := ht.linked.target ▸ ht.linked.pcRel
  have hinfo := argInfo_of_pcRel hpc (needsBasePtr c) kind
  refine .bind (.bind (.ask (.bind (.ask (.pure ?_)))))
  refine .bind (.ask (.bind (.ask (.bind ?_))))
  rw [ht.linked.target]
  refine (does_addExtraArgs ht fun r hr => TargetInfo.mem_machineRegs.mp hr).mono
    fun extra c' s' h => ?_
  obtain ⟨rfl, rfl, hextra⟩ := h
  rw [ht.linked.target] at hinfo
  rw [hinfo]
  exact .bind (.pure (.pure ⟨rfl, rfl, extra, by simp [FragKind.unused], hextra⟩))

/-- An argument in the representation of a parameter. A word may be an integer here and a pointer
there, and the cast keeps its bits. -/
theorem does_castToTy {ty : IR.Ty} {u : Val} {v : MLVal} (hty : ty = intTy ∨ ty = ptrTy)
    (hu : Holds act c s u v) :
    (castToTy ty u).Does act c s fun u' c' s' =>
      Quiet c c' s s' ∧ Is act c' s' u' v.word ∧ u'.getType = ty := by
  unfold castToTy
  by_cases hsame : u.getType = ty
  · rw [if_neg (not_not_intro hsame)]
    exact .pure ⟨.refl c s, hu.is, hsame⟩
  · rw [if_pos hsame]
    rcases hty with rfl | rfl
    · have hptr : u.getType = ptrTy := hu.cases.resolve_left hsame
      rw [hptr]
      refine .createCast hu.is (fun _ => rfl) (fun _ => ⟨?_, ?_⟩) fun u' c' s' hq hv hty =>
        ⟨hq, hv, hty⟩
      · rw [hptr]
        rfl
      · simp [CastOp.eval, Ty.bits]
    · have hint : u.getType = intTy := hu.cases.resolve_right hsame
      rw [hint]
      refine .createCast hu.is (fun _ => rfl) (fun _ => ⟨?_, rfl⟩) fun u' c' s' hq hv hty =>
        ⟨hq, hv, hty⟩
      rw [hint]
      rfl

/-- The types of parameters that are words: a tagged or a raw 64-bit integer is an integer for
LLVM, and a label or a pointer is a pointer. -/
theorem genTy_of_isWord {ty : Cfg.Ty} (h : ty.isWord = true) :
    genTy ty = if ty.isInt then intTy else ptrTy := by
  cases ty with
  | LABt => rfl
  | PTRt => rfl
  | TAGt => rfl
  | NUMt sz =>
      obtain rfl : sz = 64 := by simpa [Cfg.Ty.isWord] using h
      rfl
  | FLTt sz => cases h

/-- A parameter that is a word has one of two types. -/
theorem genTy_cases {ty : Cfg.Ty} (h : ty.isWord = true) : genTy ty = intTy ∨ genTy ty = ptrTy := by
  rw [genTy_of_isWord h]
  cases ty.isInt
  · exact .inr rfl
  · exact .inl rfl

/-- Arguments for parameters of some types, from index `i` on. All values are still valid at the
end, since the later code only computes. -/
theorem does_castArgs {fnTy : List IR.Ty} {es : List (Exp .cpp)} {i : Nat} {vs : List MLVal}
    (htys : ∀ k < es.length, ∃ ty, fnTy[i + k]? = some ty ∧ (ty = intTy ∨ ty = ptrTy))
    (ht : Tracks act M ρ σ c s) (hvs : Exp.evalArgs M ρ σ es = some vs) :
    (castArgs fnTy es i).Does act c s fun us c' s' =>
      Quiet c c' s s' ∧ List.Forall₂ (fun u v => Is act c' s' u v.word) us vs := by
  induction es generalizing i c s vs with
  | nil =>
      cases hvs
      exact .pure ⟨.refl c s, .nil⟩
  | cons e es ih =>
      obtain ⟨v, hv, h⟩ := Option.bind_eq_some_iff.mp hvs
      obtain ⟨vs', hvs', h'⟩ := Option.bind_eq_some_iff.mp h
      cases h'
      obtain ⟨ty, hty, hcases⟩ := htys 0 (Nat.succ_pos _)
      refine .bind ((Exp.does_eval e ht hv).mono fun u c₁ s₁ hu => ?_)
      refine .bind (.deref hty (.bind ((does_castToTy hcases hu.2).mono fun u' c₂ s₂ hu' => ?_)))
      have hq := hu.1.trans hu'.1
      have hrest := ih (i := i + 1) (fun k hk => by
        obtain ⟨ty, hty, hcases⟩ := htys (k + 1) (Nat.succ_lt_succ hk)
        exact ⟨ty, by rwa [Nat.add_assoc, Nat.add_comm 1 k], hcases⟩) (ht.quiet hq) hvs'
      refine .bind (hrest.mono fun us c₃ s₃ hus => .pure ?_)
      exact ⟨hq.trans hus.1, .cons (hu'.2.1.later hus.1.toLater) hus.2⟩

/-- The words of arguments, at the end of the code for them. -/
theorem map_eval_eq {us : List Val} {vs : List MLVal}
    (h : List.Forall₂ (fun u v => Is act c s u v.word) us vs) :
    us.map (·.eval act s.regs) = vs.map fun v => some v.word := by
  induction h with
  | nil => rfl
  | cons hu _ ih => rw [List.map_cons, List.map_cons, hu.eval, ih]

/-- The type of a parameter after the implicit ones is that of a word. -/
theorem fnTy_get {tys : List Cfg.Ty} {n k : Nat} {pre : List IR.Ty} (hpre : pre.length = n)
    (hall : tys.all (·.isWord) = true) (hk : k < tys.length) :
    ∃ ty, (pre ++ tys.map genTy)[n + k]? = some ty ∧ (ty = intTy ∨ ty = ptrTy) := by
  have hget := List.getElem?_eq_getElem hk
  refine ⟨genTy tys[k], ?_, genTy_cases (List.all_eq_true.mp hall _ (List.getElem_mem hk))⟩
  rw [List.getElem?_append_right (by omega), hpre, Nat.add_sub_cancel_left, List.getElem?_map, hget]
  rfl

/-- The number of the implicit parameters of a convention. -/
theorem length_implicit {t : TargetInfo} (hpc : t.hasPCRel = true) (needs : Bool)
    (kind : FragKind) :
    (paramTysOf (argInfo t needs kind)).length = t.numMachineRegs + kind.unused := by
  rw [argInfo_of_pcRel hpc, length_paramTysOf _ (Nat.zero_le 1)]
  rfl

/-- The arguments of a call: the special registers, the unused ones and the words of the
arguments, in the types that the callee declares. -/
theorem does_setupStdArgs {tys : List Cfg.Ty} {kind : FragKind} {needs : Bool}
    {es : List (Exp .cpp)} {vs : List MLVal} (hlen : vs.length ≤ tys.length)
    (hall : tys.all (·.isWord) = true) (ht : Tracks act M ρ σ c s)
    (hvs : Exp.evalArgs M ρ σ es = some vs) :
    (setupStdArgs (paramTysOf (argInfo M.target needs kind) ++ tys.map genTy) (.con kind) es).Does
      act c s fun us c' s' => Quiet c c' s s' ∧ us.map (·.eval act s'.regs)
        = (M.machineWords σ).map some ++ List.replicate kind.unused none
          ++ vs.map fun v => some v.word := by
  have hpre := length_implicit ht.linked.pcRel needs kind
  refine .bind ((does_createArgs ht kind).mono fun us c₁ s₁ h => ?_)
  obtain ⟨rfl, rfl, extra, rfl, hextra⟩ := h
  have hn : (extra ++ List.replicate kind.unused (.undef ptrTy : Val)).length
      = M.target.numMachineRegs + kind.unused := by
    rw [List.length_append, hextra.length_eq, List.length_replicate, List.length_map,
      Machine.machineWords, List.length_map]
    rfl
  rw [hn]
  refine .bind ((does_castArgs (fun k hk => ?_) ht hvs).mono fun us c' s' hus => .pure ?_)
  · exact fnTy_get hpre hall (by rw [← Exp.length_evalArgs hvs] at hk; omega)
  · refine ⟨hus.1, ?_⟩
    have hwords : extra.map (·.eval act s'.regs) = (M.machineWords σ).map some := by
      rw [map_eval_eq (hextra.imp fun _ _ hu => (hu.later hus.1.toLater).is), List.map_map]
      rfl
    have hundef : (List.replicate kind.unused (.undef ptrTy : Val)).map
        (·.eval act s'.regs) = List.replicate kind.unused none := by
      rw [List.map_replicate]
      rfl
    rw [List.map_append, List.map_append, hwords, hundef, map_eval_eq hus.2]

/-- The function that is called, and its parameters. A label has the type of the entry it names,
and any other function the one that the kind of the call and the types at the call give. -/
theorem does_callee {fn : Exp .cpp} {kind : FragKind} {tys tys' : List Cfg.Ty} {what : String}
    {f : Word} {kind' : Tagged FragKind} (ht : Tracks act M ρ σ c s)
    (h : fn.target M ρ σ kind tys = some (f, kind', tys')) :
    (callee fn kind tys what).Does act c s fun p c' s' => Quiet c c' s s' ∧
      Is act c' s' p.1 f ∧ p.2.2 = kind' ∧ ∃ k needs, kind' = .con k ∧
        p.2.1 = paramTysOf (argInfo M.target needs k) ++ tys'.map genTy := by
  unfold Exp.target at h
  unfold callee
  cases hlab : isLABEL fn with
  | some lab =>
      rw [hlab] at h
      obtain ⟨g, hg, heq⟩ := Option.map_eq_some_iff.mp h
      cases heq
      obtain ⟨cf, hcf, hexp⟩ := ht.linked.clusters lab g hg
      obtain ⟨k, hk, hfnTy⟩ := hexp.fnTy
      refine .bind (.ask (.bind (.deref hcf (.bind (.deref hexp.entry (.pure ?_))))))
      refine ⟨.refl c s, ⟨trivial, congrArg some hexp.code⟩, rfl, k,
        cf.cluster.attrs.needsBasePtr, hk, ?_⟩
      rw [hfnTy, userTys, List.map_map]
      rfl
  | none =>
      rw [hlab] at h
      obtain ⟨v, hv, h⟩ := Option.bind_eq_some_iff.mp h
      obtain ⟨hint, heq⟩ := Option.ite_none_left_eq_some.mp h
      cases heq
      refine .bind (.bind (.bind (.bind (.ask (.bind (.ask (.pure (.pure (.pure ?_)))))))))
      refine .bind ((Exp.does_eval fn ht hv).mono fun u c₁ s₁ hu => ?_)
      have hptr : u.getType = ptrTy := hu.2.ptr (by simpa using hint)
      refine .bind (.createCast hu.2.is (fun _ => rfl) (fun hne => absurd hptr hne)
        fun u' c' s' hq hu' _ => .pure ⟨hu.1.trans hq, hu', rfl, kind, needsBasePtr c, rfl, ?_⟩)
      rw [ht.linked.target]

/-- The roots of a collection as arguments, all of them pointers. -/
theorem does_rootArgs {es : List (Exp .cpp)} {vs : List MLVal} (ht : Tracks act M ρ σ c s)
    (hvs : Exp.evalArgs M ρ σ es = some vs) :
    (rootArgs es).Does act c s fun us c' s' => Quiet c c' s s' ∧
      List.Forall₂ (fun u v => Is act c' s' u v.word) us vs := by
  induction es generalizing c s vs with
  | nil =>
      cases hvs
      exact .pure ⟨.refl c s, .nil⟩
  | cons e es ih =>
      obtain ⟨v, hv, h⟩ := Option.bind_eq_some_iff.mp hvs
      obtain ⟨vs', hvs', h'⟩ := Option.bind_eq_some_iff.mp h
      cases h'
      refine .bind ((Exp.does_eval e ht hv).mono fun u c₁ s₁ hu => ?_)
      refine .bind (.asPtr hu.2.is hu.2.ptrOrInt fun u' c₂ s₂ hq₂ hu' _ => ?_)
      have hq := hu.1.trans hq₂
      refine .bind ((ih (ht.quiet hq) hvs').mono fun us c₃ s₃ hus => .pure ?_)
      exact ⟨hq.trans hus.1, .cons (hu'.later hus.1.toLater) hus.2⟩

/-! ### Values for phi nodes -/

/-- The values for the phi nodes from index `i` on are computed in the source block. -/
theorem straight_addFragIncoming {srcBB : BBId} {phis : List (Nat × IR.Ty)} {us : List Val}
    {vs : List MLVal} {i : Nat} (htys : ∀ (k : Nat) phi, k < us.length → phis[i + k]? = some phi →
      phi.2 = intTy ∨ phi.2 = ptrTy)
    (hus : List.Forall₂ (Holds act c s) us vs)
    (h : addFragIncoming srcBB phis us i c = .ok ((), c')) :
    ∃ s' ics, Straight act c c' s s' ∧ Quiet c c' s s' ∧
      c'.body.incoming = c.body.incoming ++ ics ∧
      ∀ (k : Nat) v, vs[k]? = some v → ∃ phi u, phis[i + k]? = some phi ∧
        ics[k]? = some (phi.1, u, srcBB) ∧ Is act c' s' u v.word := by
  induction us generalizing i c s vs with
  | nil =>
      obtain ⟨-, rfl⟩ := CodegenM.pure_ok.mp h
      cases hus
      exact ⟨s, [], .refl c' s, .refl c' s, by simp, by simp⟩
  | cons u us ih =>
      obtain _ | ⟨hu, hus⟩ := hus
      obtain ⟨phi, c₁, h₁, h₂⟩ := CodegenM.bind_ok.mp h
      obtain ⟨hphi, rfl⟩ := run_deref_ok.mp h₁
      obtain ⟨u', c₂, h₃, h₄⟩ := CodegenM.bind_ok.mp h₂
      obtain ⟨⟨⟩, c₃, h₅, h₆⟩ := CodegenM.bind_ok.mp h₄
      cases h₅
      obtain ⟨s₂, hst, -, hq, hu', -⟩ :=
        (does_castToTy (htys 0 phi (Nat.succ_pos _) hphi) hu).of_run h₃
      -- the edge to the phi node
      set c₃ : Context := { c₂ with
        body := { c₂.body with incoming := c₂.body.incoming ++ [(phi.1, u', srcBB)] } } with hc₃
      have hq₃ : Quiet c₂ c₃ s₂ s₂ := ⟨⟨Nat.le_refl _, fun _ _ => rfl⟩, rfl, rfl, rfl⟩
      have hq' := hq.trans hq₃
      obtain ⟨s', ics, hst', hq'', hinc, hvals⟩ := ih (i := i + 1)
        (fun k phi hk hphi => htys (k + 1) phi (Nat.succ_lt_succ hk) (by
          rwa [Nat.add_assoc, Nat.add_comm 1 k] at hphi))
        (hus.imp fun _ _ hu => hu.later hq'.toLater) h₆
      have hst₃ : Straight act c₂ c₃ s₂ s₂ := .of_eq s₂ rfl rfl
      refine ⟨s', (phi.1, u', srcBB) :: ics, hst.trans (hst₃.trans hst'), hq'.trans hq'', ?_,
        fun k v hv => ?_⟩
      · have hinc₂ : c₂.body.incoming = c₁.body.incoming := (StaysIn.of_run h₃).incoming
        refine hinc.trans ?_
        show c₂.body.incoming ++ [(phi.1, u', srcBB)] ++ ics = _
        rw [hinc₂, List.append_assoc]
        rfl
      · cases k with
        | zero =>
            obtain rfl := Option.some.inj hv
            exact ⟨phi, u', hphi, rfl, hu'.later (hq₃.trans hq'').toLater⟩
        | succ k =>
            obtain ⟨phi', u'', hphi', hic, hw⟩ := hvals k v hv
            rw [Nat.add_assoc, Nat.add_comm 1 k] at hphi'
            exact ⟨phi', u'', hphi', hic, hw⟩

end SmlnjCfg.Codegen
