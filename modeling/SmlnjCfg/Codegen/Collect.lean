import SmlnjCfg.Codegen.Args

/-!
# `SmlnjCfg.Codegen.Collect`: the call of the garbage collector

The collector gets the special registers and the roots as arguments, and returns
them in a structure. The registers and the new roots are taken from there, so that no
value from before the call is used for them.

* `does_createGCCall`: the call, with any memory that the collector leaves.
* `does_extractRegs`, `straight_extractRoots`: the components of the structure.
* `straight_callGC`: a `CALLGC` with its roots.
-/

set_option autoImplicit false

namespace SmlnjCfg.Codegen

open Cfg Gen IR

variable {act : Activation Sym} {M : Machine} {ρ : Env} {σ : MState} {c c' : Context} {s : State}

/-- The words of arguments, all of which are computed. -/
theorem mapM_eval {us : List Val} {ws : List Word} (h : List.Forall₂ (Is act c s) us ws) :
    us.mapM (·.eval act s.regs) = some ws := by
  induction h with
  | nil => rfl
  | cons hu _ ih => simp [List.mapM_cons, hu.eval, ih]

/-- The call may change the memory, and gives a list of words. -/
theorem does_createGCCall {us : List Val} {ws : List Word} (ht : Tracks act M ρ σ c s)
    (hus : List.Forall₂ (Is act c s) us ws)
    (hlen : us.length = M.target.numMachineRegs + M.target.numGCRoots) :
    (createGCCall us).Does act c s fun call c' s' => Later c c' s s' ∧ c'.vMap = c.vMap ∧
      Tracks act M ρ
        { σ with mem := (M.call (σ.load (M.slot M.target.callGCOffset)) ws σ.mem).2 } c' s' ∧
      call < c'.nextId ∧
      s'.regs call = (M.call (σ.load (M.slot M.target.callGCOffset)) ws σ.mem).1 := by
  have htarget := ht.linked.target
  refine .bind (.ask (.bind (.assert (by simp [htarget, hlen]) (.bind (.bind ?_)))))
  refine .stkAddr fun adr c₁ s₁ hq₁ hadr hta => ?_
  rw [htarget, ht.slot] at hadr
  refine .loadML (ht.quiet hq₁) hadr hta fun fn c₂ s₂ hq₂ hfn => ?_
  refine .bind (.createCast hfn.is (fun _ => rfl) (fun hne => absurd (hfn.ptr rfl) hne)
    fun fn' c₃ s₃ hq₃ hfn' htf => ?_)
  have hq := hq₁.trans (hq₂.trans hq₃)
  have ht₃ := ht.quiet hq
  -- the call itself
  have hstep : (Op.call fn' us).step act c₃.nextId s₃ = some ({ s₃ with
      mem := (M.call (σ.load (M.slot M.target.callGCOffset)) ws σ.mem).2 }.setReg c₃.nextId
        (M.call (σ.load (M.slot M.target.callGCOffset)) ws σ.mem).1) := by
    have hargs := mapM_eval (hus.imp fun _ _ hu => hu.later hq.toLater)
    simp only [Op.step, hfn'.eval, hargs, Option.bind_eq_bind, Option.bind_some,
      ht.linked.call, ht₃.mem]
  have hl : Later c₃ (c₃.emitOp (.call fn' us)) s₃ ({ s₃ with
      mem := (M.call (σ.load (M.slot M.target.callGCOffset)) ws σ.mem).2 }.setReg c₃.nextId
        (M.call (σ.load (M.slot M.target.callGCOffset)) ws σ.mem).1) :=
    ⟨Nat.le_succ _, fun id hid => State.regs_setReg_of_ne _ _ (Nat.ne_of_lt hid)⟩
  refine ⟨c₃.nextId, c₃.emitOp (.call fn' us), _, ?_, hq.toLater.trans hl, hq.vMap, ?_,
    Nat.lt_succ_self _, State.regs_setReg_self _ _ _⟩
  · rw [exec, if_pos (by simp [Op.wellTyped, htf, Ty.isPointerTy]), hstep]
    rfl
  · refine ⟨ht₃.linked.of_eq rfl rfl, fun x v hx => ?_, fun r hr => ?_, ht₃.stack, rfl, ht₃.trace⟩
    · obtain ⟨u, hu, hv⟩ := ht₃.env x v hx
      exact ⟨u, hu, hv.later hl⟩
    · obtain ⟨u, hu, hv⟩ := ht₃.reg r hr
      exact ⟨u, hu, hv.later hl⟩

/-- The registers get their components of the structure. -/
theorem does_extractRegs {call : Nat} {ws : List Word} {regs : List CMRegId} {ix : Nat}
    (hregs : ∀ r ∈ regs, M.target.isMachineReg r = true) (hlen : ix + regs.length ≤ ws.length)
    (ht : Tracks act M ρ σ c s) (hcall : call < c.nextId) (hws : s.regs call = ws) :
    (extractRegs call regs ix).Does act c s fun _ c' s' => Later c c' s s' ∧
      Tracks act M ρ (σ.setRegs regs (ws.drop ix)) c' s' := by
  induction regs generalizing ix c s σ with
  | nil => exact .pure ⟨.refl c s, by rwa [MState.setRegs_nil]⟩
  | cons r regs ih =>
      obtain ⟨hr, hregs'⟩ := List.forall_mem_cons.mp hregs
      have hlen' : ix + (regs.length + 1) ≤ ws.length := hlen
      have hix : ix < ws.length := by omega
      have hdrop : ws.drop ix = ws[ix] :: ws.drop (ix + 1) := List.drop_eq_getElem_cons hix
      refine .bind (.inst (w := ws[ix]) rfl ?_ fun v c₁ s₁ hq₁ hv htv => ?_)
      · simp [Op.step, hws, hix]
      refine .bind (.writeReg (ht.quiet hq₁) (.ofPtr hv htv) fun c₂ s₂ hl₂ ht₂ => ?_)
      rw [Machine.setReg, if_pos hr] at ht₂
      have hl := hq₁.toLater.trans hl₂
      refine (ih hregs' (by omega) ht₂ (Nat.lt_of_lt_of_le hcall hl.nextId_le)
        ((hl.regs call hcall).trans hws)).mono fun _ c' s' h => ⟨hl.trans h.1, ?_⟩
      rw [hdrop, MState.setRegs]
      exact h.2

/-- The new roots get theirs. -/
theorem straight_extractRoots {call : Nat} {ws : List Word} {lvs : List LVar} {ix : Nat}
    (hnodup : lvs.Nodup) (hfresh : ∀ lv ∈ lvs, c.vMap lv = none)
    (hlen : ix + lvs.length ≤ ws.length) (ht : Tracks act M ρ σ c s) (hcall : call < c.nextId)
    (hws : s.regs call = ws) (h : extractRoots call lvs ix c = .ok ((), c')) :
    ∃ s', Straight act c c' s s' ∧ Tracks act M (ρ.setAll lvs ((ws.drop ix).map .ml)) σ c' s' := by
  induction lvs generalizing ix c s ρ with
  | nil =>
      obtain ⟨-, rfl⟩ := CodegenM.pure_ok.mp h
      exact ⟨s, .refl c' s, by rwa [Cfg.Env.setAll_nil]⟩
  | cons lv lvs ih =>
      obtain ⟨hlv, hnodup'⟩ := List.nodup_cons.mp hnodup
      have hlen' : ix + (lvs.length + 1) ≤ ws.length := hlen
      have hix : ix < ws.length := by omega
      have hdrop : ws.drop ix = ws[ix] :: ws.drop (ix + 1) := List.drop_eq_getElem_cons hix
      obtain ⟨u, c₁, h₁, h₂⟩ := CodegenM.bind_ok.mp h
      obtain ⟨⟨⟩, c₂, h₃, h₄⟩ := CodegenM.bind_ok.mp h₂
      have hroot : (Gen.inst (.extract call ix) ptrTy : Gen Val).Does act c s fun u c' s' =>
          Quiet c c' s s' ∧ Holds act c' s' u (.ml ws[ix]) :=
        .inst rfl (by simp [Op.step, hws, hix]) fun u c' s' hq hu hty => ⟨hq, .ofPtr hu hty⟩
      obtain ⟨s₁, hst₁, hl₁, hq₁, hu⟩ := hroot.of_run h₁
      have hvMap₁ := hq₁.vMap
      have hlv₁ : c₁.vMap lv = none := by rw [hvMap₁, hfresh lv List.mem_cons_self]
      obtain ⟨ht₂, hst₂, hl₂⟩ := (ht.quiet hq₁).bind hu hlv₁ h₃
      have hl := hl₁.trans hl₂
      obtain ⟨s', hst', ht'⟩ := ih hnodup' (fun x hx => by
          have hne : x ≠ lv := fun heq => hlv (heq ▸ hx)
          rw [insertVal_self h₃ hlv₁, if_neg hne, hvMap₁, hfresh x (List.mem_cons_of_mem _ hx)])
        (by omega) ht₂ (Nat.lt_of_lt_of_le hcall hl.nextId_le) ((hl.regs call hcall).trans hws) h₄
      refine ⟨s', hst₁.trans (hst₂.trans hst'), ?_⟩
      rw [hdrop]
      exact ht'

/-- A collection, with the registers and the roots as the collector returns them. -/
theorem straight_callGC {frag : Nat} {path : List Nat} {roots : List (Exp .cpp)}
    {newRoots : List LVar} {k : Stm .cpp} {vs : List MLVal} {q : Cfg.Config}
    (ht : Tracks act M ρ σ c s) (hvs : Exp.evalArgs M ρ σ roots = some vs)
    (hnodup : newRoots.Nodup) (hfresh : ∀ lv ∈ newRoots, c.vMap lv = none)
    (hstep : gcStep M ρ σ (vs.map (·.word)) newRoots k = some q)
    (h : Stm.head frag (.CALLGC roots newRoots k) path c = .ok ((), c')) :
    ∃ ρ' σ' s', q = .run k ρ' σ' ∧ Straight act c c' s s' ∧ Tracks act M ρ' σ' c' s' := by
  obtain ⟨⟨hroots, hres, hnew⟩, ⟨⟩⟩ := Option.ite_none_right_eq_some.mp hstep
  rw [List.length_map] at hroots
  obtain ⟨extra, c₁, h₁, h₂⟩ := CodegenM.bind_ok.mp h
  obtain ⟨us, c₂, h₃, h₄⟩ := CodegenM.bind_ok.mp h₂
  obtain ⟨c₃, c₄, h₅, h₆⟩ := CodegenM.bind_ok.mp h₄
  cases h₅
  obtain ⟨call, c₅, h₇, h₈⟩ := CodegenM.bind_ok.mp h₆
  obtain ⟨⟨⟩, c₆, h₉, h₁₀⟩ := CodegenM.bind_ok.mp h₈
  -- the arguments
  obtain ⟨s₁, -, -, rfl, rfl, extra', hextra', hspecial⟩ := (does_createArgs ht .STD_FUN).of_run h₁
  obtain rfl : extra = extra' := by simpa [FragKind.unused] using hextra'
  obtain ⟨s₂, hst₂, -, hq₂, hus⟩ := (does_rootArgs ht hvs).of_run h₃
  have hall : List.Forall₂ (Is act c₂ s₂) (extra ++ us) (M.machineWords σ ++ vs.map (·.word)) := by
    refine List.rel_append ?_ (List.forall₂_map_right_iff.mpr hus)
    have hwords := List.forall₂_map_right_iff.mp
      (hspecial.imp fun _ _ hu => (hu.later hq₂.toLater).is)
    exact hwords
  have hlen : (extra ++ us).length = M.target.numMachineRegs + M.target.numGCRoots := by
    rw [hall.length_eq, List.length_append, List.length_map, hroots, Machine.machineWords,
      List.length_map]
    rfl
  -- the call
  obtain ⟨s₃, hst₃, -, hl₃, hvMap₃, ht₃, hcall, hws⟩ :=
    (does_createGCCall (ht.quiet hq₂) hall hlen).of_run h₇
  have hregs : ∀ r ∈ c₂.target.machineRegs, M.target.isMachineReg r = true := by
    rw [(ht.quiet hq₂).linked.target]
    exact fun r => TargetInfo.mem_machineRegs.mp
  have htarget := (ht.quiet hq₂).linked.target
  have hextract : (extractRegs call c₂.target.machineRegs 0).Does act c₅ s₃ _ :=
    does_extractRegs hregs (by
      rw [htarget, Nat.zero_add, hres]
      exact Nat.le_add_right _ _) ht₃ hcall hws
  obtain ⟨s₄, hst₄, hl₄, -, ht₄⟩ := hextract.of_run h₉
  -- the new roots
  have hvMap₄ : c₆.vMap = c₁.vMap := (vMap_of_run h₉).trans (hvMap₃.trans hq₂.vMap)
  obtain ⟨s₅, hst₅, ht₅⟩ := straight_extractRoots hnodup (fun lv hlv => by
      rw [hvMap₄, hfresh lv hlv]) (by rw [htarget, hres]; omega) ht₄
    (Nat.lt_of_lt_of_le hcall hl₄.nextId_le) ((hl₄.regs call hcall).trans hws) h₁₀
  refine ⟨_, _, s₅, rfl, hst₂.trans (hst₃.trans (hst₄.trans hst₅)), ?_⟩
  rw [htarget] at ht₅
  exact ht₅

end SmlnjCfg.Codegen
