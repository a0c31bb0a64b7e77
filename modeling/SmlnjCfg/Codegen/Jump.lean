import SmlnjCfg.Lib.Simulation
import SmlnjCfg.Codegen.Args

/-!
# `SmlnjCfg.Codegen.Jump`: the ends of blocks

Blocks end where a statement jumps to a fragment, tests and goes on with one of its
arms, or leaves the cluster. The fragments are entered through phi nodes, and their
parameters are the same words before and after.

* `Compiled`: the code of a cluster, and what it runs on.
* `Visits.ends`: what code generation comes to is finished when it ends.
* `Starts.tracks`: the registers and the parameters at the start of a fragment.
* `Compiled.enterFrag`, `Compiled.enterArm`: the two kinds of jumps.
-/

set_option autoImplicit false

namespace SmlnjCfg.Codegen

open Cfg Gen IR

variable {act : Activation Sym} {M : Machine} {ρ : Env} {σ : MState} {cf : ClusterFn}
  {c C d₀ : Context} {fs : List FragBB}

/-! ### The code of a cluster -/

/-- The code of the cluster `cf`, which runs on the same machine as the program. -/
structure Compiled (act : Activation Sym) (M : Machine) (cf : ClusterFn) (c C : Context)
    (fs : List FragBB) (d₀ : Context) : Prop extends ClusterGen cf c C fs d₀ where
  linked : Linked act M c
  frags : M.frags = cf.cluster.frags
  unique : ∀ f ∈ cf.cluster.frags, f.UniqueBinds
  entry : ∀ f, cf.cluster.frags.head? = some f → f.kind ≠ .con .INTERNAL

namespace Compiled

theorem linkedEnd (h : Compiled act M cf c C fs d₀) : Linked act M C := by
  have hg := h.grows
  have hframe := h.inits.frame
  exact h.linked.of_eq (hg.target.trans (by rw [hframe]; rfl))
    (hg.clusterMap.trans (by rw [hframe]; rfl))

/-- The machine is the same at all points of the run. -/
theorem linkedAt (h : Compiled act M cf c C fs d₀) {q : Code × Context}
    (hv : Visits (.frags fs 0, d₀) q) : Linked act M q.2 := by
  have hg := hv.grows h.ready h.emits
  exact h.linkedEnd.of_eq hg.target.symm hg.clusterMap.symm

end Compiled

/-! ### Finished blocks -/

/-- What code generation comes to ends, and then code goes to unused blocks only. -/
theorem Visits.ends {p q : Code × Context} (h : Visits p q) {C : Context} (hr : Ready p.1 p.2)
    (he : Emits p.1 p.2 C) : ∃ C', Emits q.1 q.2 C' ∧ Grows (Unused C') C' C := by
  induction h using Relation.ReflTransGen.head_induction_on generalizing C with
  | refl => exact ⟨C, he, .refl C⟩
  | head hcall _ ih =>
      obtain ⟨C₁, he₁, hg₁⟩ := hcall.split hr he
      obtain ⟨C', he', hg'⟩ := ih (hcall.ready hr) he₁
      exact ⟨C', he', hg'.trans (hg₁.mono fun b hb => hb.before hg')⟩

/-- A statement that nothing follows is finished when its head is. -/
theorem ClusterRun.head_stop {frag : Nat} {s : Stm .cpp} {path : List Nat} {d : Context}
    (h : ClusterRun cf c C fs d₀) (hv : Visits (.frags fs 0, d₀) (.stm frag s path, d))
    (hk : s.kids = .stop) : ∃ d', s.head frag path d = .ok ((), d') ∧ Grows (Unused d') d' C := by
  obtain ⟨d', he, hg⟩ := hv.ends h.ready h.emits
  cases he with
  | stop _ hhead => exact ⟨d', hhead, hg⟩
  | next hk' => rw [hk] at hk'; cases hk'
  | arms hk' => rw [hk] at hk'; cases hk'

/-- The block of a statement that arms follow is finished when its head is. -/
theorem ClusterRun.head_arms {frag : Nat} {s : Stm .cpp} {ks : List (Stm .cpp)}
    {path : List Nat} {d : Context} (h : ClusterRun cf c C fs d₀)
    (hv : Visits (.frags fs 0, d₀) (.stm frag s path, d)) (hk : s.kids = .arms ks) :
    ∃ d', s.head frag path d = .ok ((), d') ∧ Grows (Unused d') d' C ∧
      Visits (.frags fs 0, d₀) (.arms frag d'.regState ks path 0, d') := by
  obtain ⟨C', he, -⟩ := hv.ends h.ready h.emits
  cases he with
  | stop hk' => rw [hk] at hk'; cases hk'
  | next hk' => rw [hk] at hk'; cases hk'
  | @arms _ _ _ _ _ d' _ hk' hhead harms =>
      rw [hk] at hk'
      cases hk'
      have hv' : Visits (.frags fs 0, d₀) (.arms frag d'.regState ks path 0, d') :=
        hv.tail (.arms hk hhead)
      refine ⟨d', hhead, (hv'.grows h.ready h.emits).mono fun b hb => ?_, hv'⟩
      rcases hb with hcur | hunused
      · cases hcur
      · exact hunused

/-- What was added to the current block before it was left. -/
theorem block_eq_of_ends {d d' : Context} {js : List (BBId × Inst BBId Sym)}
    {i : Inst BBId Sym} {is : List (Inst BBId Sym)}
    (hinsts : d'.body.insts = d.body.insts ++ js)
    (hjs : js.filterMap (fun p => if p.1 = d.curBB then some p.2 else none) = i :: is)
    (hg : Grows (Unused d') d' C) :
    C.body.block d.curBB = d.body.block d.curBB ++ i :: is := by
  have hmem : i ∈ js.filterMap fun p => if p.1 = d.curBB then some p.2 else none := by
    rw [hjs]
    exact List.mem_cons_self
  obtain ⟨p, hp, hcur⟩ := List.mem_filterMap.mp hmem
  obtain ⟨hcur, -⟩ := Option.ite_none_right_eq_some.mp hcur
  have hused : ¬ Unused d' d.curBB := fun hu =>
    hu.insts p (hinsts ▸ List.mem_append_right _ hp) hcur
  rw [hg.block_eq hused, Body.block, hinsts, List.filterMap_append, hjs]
  rfl

/-- The arm that the jump of a `BRANCH` selects. -/
theorem exit_condBr {regs : Nat → List Word} {cond : Val} {b : Bool}
    (h : cond.eval act regs = some (BitVec.ofNat 64 b.toNat)) (frag : Nat) (path : List Nat)
    (weight : Option Int) :
    (Terminator.condBr cond (BBId.stm frag (0 :: path)) (.stm frag (1 :: path)) weight).exit act
      regs = some (.goto (.stm frag ((if b then 0 else 1) :: path))) := by
  show (cond.eval act regs >>= fun c => some (Exit.goto (if c = 0 then _ else _))) = _
  rw [h]
  cases b <;> rfl

/-- The blocks of arms have no phi nodes, so a jump to one changes nothing. -/
theorem ClusterGen.enter_arm (h : ClusterGen cf c C fs d₀) (pred : BBId) (frag i : Nat)
    (path : List Nat) (s : State) :
    enter act C.body pred (.stm frag (i :: path)) s = some s := by
  simp [enter, h.phisOf_arm]

/-- The code of a `BRANCH` is that of its arguments, that of its test and the jump, with
which the block ends. Code generation goes on with the arms where nothing but the block
has changed. -/
theorem ClusterRun.branch_end {frag : Nat} {path : List Nat} {oper : CfgPrim.Branch .cpp}
    {args : List (Exp .cpp)} {prob : Int} {trueK falseK : Stm .cpp} {d : Context}
    (h : ClusterRun cf c C fs d₀)
    (hv : Visits (.frags fs 0, d₀) (.stm frag (.BRANCH oper args prob trueK falseK) path, d)) :
    ∃ us c₁ cond c₂ d₁, (Exp.codegenArgs args).run d = .ok (us, c₁) ∧
      (oper.codegen us).run c₁ = .ok (cond, c₂) ∧ d₁ = { c₂ with body := d₁.body } ∧
      Stm.head frag (.BRANCH oper args prob trueK falseK) path d = .ok ((), d₁) ∧
      C.body.block c₂.curBB = c₂.body.block c₂.curBB ++ [.term (.condBr cond
        (.stm frag (0 :: path)) (.stm frag (1 :: path)) (if prob = 0 then none else some prob))] ∧
      Visits (.frags fs 0, d₀) (.arms frag d₁.regState [trueK, falseK] path 0, d₁) := by
  obtain ⟨d₁, hhead, hg, hv₁⟩ := h.head_arms hv rfl
  obtain ⟨us, c₁, h₁, h₂⟩ := CodegenM.bind_ok.mp hhead
  obtain ⟨cond, c₂, h₃, h₄⟩ := CodegenM.bind_ok.mp h₂
  cases h₄
  refine ⟨us, c₁, cond, c₂, _, h₁, h₃, rfl, hhead, block_eq_of_ends rfl ?_ hg, hv₁⟩
  simp

/-! ### The start of a fragment -/

theorem Env.setAll_some {xs : List LVar} {vs : List MLVal} {x : LVar} {v : MLVal}
    (h : Cfg.Env.setAll ρ xs vs x = some v) :
    (∃ k : Nat, xs[k]? = some x ∧ vs[k]? = some v) ∨ ρ x = some v := by
  induction xs generalizing vs ρ with
  | nil => exact .inr h
  | cons y ys ih =>
      cases vs with
      | nil => exact .inr h
      | cons w ws =>
          rcases ih h with ⟨k, hk⟩ | hset
          · exact .inl ⟨k + 1, hk⟩
          · by_cases hxy : x = y
            · subst hxy
              rw [Cfg.Env.set_self] at hset
              exact .inl ⟨0, rfl, hset⟩
            · rw [Cfg.Env.set_of_ne _ _ hxy] at hset
              exact .inr hset

/-- A variable at the start of a fragment is a parameter, with its argument. -/
theorem Frag.env_some {f : Frag .cpp} {vs : List MLVal} {x : LVar} {v : MLVal}
    (h : f.env vs x = some v) : ∃ (k : Nat) (p : Param) (w : MLVal),
      f.params[k]? = some p ∧ p.name = x ∧ vs[k]? = some w ∧ v = ⟨p.ty.isInt, w.word⟩ := by
  rcases Env.setAll_some h with ⟨k, hx, hv⟩ | hnone
  · rw [List.getElem?_map, Option.map_eq_some_iff] at hx
    obtain ⟨p, hp, rfl⟩ := hx
    obtain ⟨ty, w, hty, hw, rfl⟩ := List.getElem?_zipWith_eq_some.mp hv
    rw [List.getElem?_map, hp] at hty
    cases hty
    exact ⟨k, p, w, hp, rfl, hw, rfl⟩
  · cases hnone

/-- The words of the special registers, `skip` others, and those of the arguments. -/
structure SlotsHold (act : Activation Sym) (M : Machine) (σ : MState) (f : Frag .cpp)
    (vs : List MLVal) (s : State) (slots : List Val) (skip : Nat) : Prop where
  tys : ∃ tys, tys.length = skip ∧ slots.map (·.getType)
    = List.replicate M.target.numMachineRegs ptrTy ++ tys ++ userTys f
  words : ∃ junk, junk.length = skip ∧ slots.map (·.eval act s.regs)
    = (M.machineWords σ).map some ++ junk ++ vs.map fun v => some v.word

namespace SlotsHold

variable {f : Frag .cpp} {vs : List MLVal} {s : State} {slots : List Val} {skip : Nat}

theorem reg (h : SlotsHold act M σ f vs s slots skip) {k : Nat} {r : CMRegId} {u : Val}
    (hr : M.target.machineRegs[k]? = some r) (hu : slots[k]? = some u) :
    u.eval act s.regs = some (σ.reg r) ∧ u.getType = ptrTy := by
  have hk : k < M.target.numMachineRegs := (List.getElem?_eq_some_iff.mp hr).1
  obtain ⟨tys, -, htys⟩ := h.tys
  obtain ⟨junk, -, hwords⟩ := h.words
  have hword := congrArg (·[k]?) hwords
  have hty := congrArg (·[k]?) htys
  rw [List.append_assoc] at hword hty
  simp only [List.getElem?_map, hu, Machine.machineWords] at hword hty
  rw [List.getElem?_append_left (by rw [List.length_map, List.length_map]; exact hk)] at hword
  rw [List.getElem?_append_left (by simpa using hk), List.getElem?_replicate_of_lt hk] at hty
  simp only [List.getElem?_map, hr, Option.map_some, Option.some.injEq] at hword hty
  exact ⟨hword, hty⟩

theorem param (h : SlotsHold act M σ f vs s slots skip) {k : Nat} {p : Param} {v : MLVal}
    {u : Val} (hp : f.params[k]? = some p) (hv : vs[k]? = some v)
    (hu : slots[M.target.numMachineRegs + skip + k]? = some u) :
    u.eval act s.regs = some v.word ∧ u.getType = genTy p.ty := by
  obtain ⟨tys, htlen, htys⟩ := h.tys
  obtain ⟨junk, hjlen, hwords⟩ := h.words
  have hword := congrArg (·[M.target.numMachineRegs + skip + k]?) hwords
  have hty := congrArg (·[M.target.numMachineRegs + skip + k]?) htys
  simp only [List.getElem?_map, hu] at hword hty
  have hlen : ((M.machineWords σ).map some ++ junk).length = M.target.numMachineRegs + skip := by
    rw [List.length_append, hjlen, List.length_map, Machine.machineWords, List.length_map]
    rfl
  have hlen' : (List.replicate M.target.numMachineRegs ptrTy ++ tys).length
      = M.target.numMachineRegs + skip := by
    rw [List.length_append, htlen, List.length_replicate]
  rw [List.getElem?_append_right (by omega), hlen, Nat.add_sub_cancel_left] at hword
  rw [List.getElem?_append_right (by omega), hlen', Nat.add_sub_cancel_left] at hty
  simp only [userTys, List.getElem?_map, hp, hv, Option.map_some, Option.some.injEq] at hword hty
  exact ⟨hword, hty⟩

end SlotsHold

/-- The registers and the parameters at the start of a fragment. -/
theorem Starts.tracks {f : FragBB} {vs : List MLVal} {s : State} {slots : List Val} {skip : Nat}
    {d d' : Context} (h : Starts f slots skip d d')
    (hslots : SlotsHold act M σ f.frag vs s slots skip) (hacc : f.frag.accepts vs = true)
    (hlink : Linked act M d) (hcomp : Computed d') (hplaced : RegsPlaced d')
    (hmem : s.mem = σ.mem) (htrace : s.trace = σ.trace) :
    Tracks act M (f.frag.env vs) σ d' s := by
  have hlink' : Linked act M d' := hlink.of_eq (by rw [h.ctx]) (by rw [h.ctx])
  obtain ⟨-, hwords⟩ : _ ∧ f.frag.params.all (·.ty.isWord) = true := by
    simpa [Frag.accepts] using hacc
  refine ⟨hlink', fun x v hx => ?_, fun r hr => ?_, fun r hr => ?_, hmem, htrace⟩
  · obtain ⟨k, p, w, hp, rfl, hw, rfl⟩ := Frag.env_some hx
    obtain ⟨u, hu, hbound⟩ := h.var k p hp
    rw [hlink.target] at hu
    obtain ⟨hword, hty⟩ := hslots.param hp hw hu
    refine ⟨u, hbound, ⟨hcomp.vMap _ _ hbound, hword⟩, ?_⟩
    rw [hty]
    exact genTy_of_isWord (List.all_eq_true.mp hwords p (List.mem_of_getElem? hp))
  · obtain ⟨k, hk⟩ := List.mem_iff_getElem?.mp (TargetInfo.mem_machineRegs.mpr hr)
    obtain ⟨u, hu, hval⟩ := h.reg k r (hlink.target ▸ hk)
    obtain ⟨hword, hty⟩ := hslots.reg hk hu
    exact ⟨u, hval, ⟨hcomp.regs _ _ hval, hword⟩, hty⟩
  · have hnone := hplaced r
    rw [hlink'.target, hr] at hnone
    simpa using hnone

/-- Nothing is in the block yet. -/
theorem Context.rest_of_unused {d : Context} (h : Unused d d.curBB) :
    d.rest C = C.body.block d.curBB := by
  have hnil : d.body.block d.curBB = [] := by
    rw [Body.block, List.filterMap_eq_nil_iff]
    intro p hp
    rw [if_neg (h.insts p hp)]
  rw [Context.rest, hnil]
  rfl

/-! ### Jumps to fragments -/

/-- The value that comes into a phi node from a block, among those for all of them. -/
theorem find?_incoming {α : Type} {phis : List (Nat × IR.Ty)} {ics : List (Nat × Val × BBId)}
    {as : List α} {pred : BBId} {P : α → Val → Prop} (hnodup : (phis.map Prod.fst).Nodup)
    (hics : ∀ (k : Nat) a, as[k]? = some a → ∃ phi u, phis[k]? = some phi ∧
      ics[k]? = some (phi.1, u, pred) ∧ P a u) {k : Nat} {a : α} (ha : as[k]? = some a) :
    ∃ phi u, phis[k]? = some phi ∧
      (ics.find? fun p => p.1 = phi.1 ∧ p.2.2 = pred) = some (phi.1, u, pred) ∧ P a u := by
  obtain ⟨phi, u, hphi, hic, hP⟩ := hics k a ha
  refine ⟨phi, u, hphi, List.find?_eq_some_iff_getElem.mpr ⟨by simp, k, ?_⟩, hP⟩
  obtain ⟨hk, hic⟩ := List.getElem?_eq_some_iff.mp hic
  refine ⟨hk, hic, fun j hj => ?_⟩
  obtain ⟨hka, -⟩ := List.getElem?_eq_some_iff.mp ha
  obtain ⟨phi', u', hphi', hic', -⟩ := hics j _ (List.getElem?_eq_getElem (Nat.lt_trans hj hka))
  obtain ⟨hji, hic'⟩ := List.getElem?_eq_some_iff.mp hic'
  obtain ⟨hkp, hphi⟩ := List.getElem?_eq_some_iff.mp hphi
  obtain ⟨hjp, hphi'⟩ := List.getElem?_eq_some_iff.mp hphi'
  -- the numbers of the phi nodes are distinct
  have hne : phi'.1 ≠ phi.1 := by
    intro heq
    have hinj : j = k := (List.getElem?_inj (by simpa using hjp) hnodup).mp
      (by simp [hjp, hkp, hphi, hphi', heq])
    exact absurd hinj (Nat.ne_of_lt hj)
  simp [hic', hne]

namespace Compiled

variable {fb : FragBB} {i : Nat}

/-- Code generation comes to the fragment with number `i`. -/
theorem visitsFrag (h : Compiled act M cf c C fs d₀) (hf : fs[i]? = some fb) :
    ∃ d d', fragStart i fb d = .ok ((), d') ∧ fb.bb = .stm i [] ∧ Unused d fb.bb ∧
      Linked act M d ∧ Visits (.frags fs 0, d₀) (.stm i fb.frag.body [], d') := by
  obtain ⟨d, d', fs', hbb, hstart, hv⟩ := h.emits.visits_frag hf
  rw [Nat.zero_add] at hbb hstart hv
  have hunused := (hv.ready h.ready).ahead fb.bb (.inl ⟨i, [], Nat.le_refl _, hbb⟩)
  exact ⟨d, d', hstart, hbb, hunused, h.linkedAt hv, hv.tail (.frag hbb hstart)⟩

/-- A fragment that can be jumped to is not the first one. -/
theorem fragAt (h : Compiled act M cf c C fs d₀) {lab : LVar} {f : Frag .cpp}
    (hfind : (M.frags.find? fun f => f.lab == lab) = some f) (hk : f.kind = .con .INTERNAL) :
    ∃ fb i, 0 < i ∧ fs[i]? = some fb ∧ fb.frag = f ∧ C.fragMap lab = some fb := by
  rw [h.frags, ← h.inits.frags, List.find?_map, Option.map_eq_some_iff] at hfind
  obtain ⟨fb, hfb, rfl⟩ := hfind
  obtain ⟨i, hi⟩ := List.mem_iff_getElem?.mp (List.mem_of_find?_eq_some hfb)
  refine ⟨fb, i, Nat.pos_of_ne_zero ?_, hi, rfl, (h.fragMap_eq lab).trans hfb⟩
  rintro rfl
  refine h.entry fb.frag ?_ hk
  rw [← h.inits.frags, List.head?_map, List.head?_eq_getElem?, hi]
  rfl

/-- The types of the phi nodes of a fragment. -/
theorem phiTys (h : Compiled act M cf c C fs d₀) (hf : fs[i]? = some fb)
    (hk : fb.frag.kind = .con .INTERNAL) :
    fb.phiNodes.map Prod.snd
      = List.replicate M.target.numMachineRegs ptrTy ++ userTys fb.frag := by
  rw [h.inits.tys fb (List.mem_of_getElem? hf) hk]
  show paramTysOf (argInfo c.target _ .INTERNAL) ++ _ = _
  rw [h.linked.target, argInfo_of_pcRel h.linked.pcRel]
  simp [paramTysOf]

theorem phiNodes_length (h : Compiled act M cf c C fs d₀) (hf : fs[i]? = some fb)
    (hk : fb.frag.kind = .con .INTERNAL) :
    fb.phiNodes.length = M.target.numMachineRegs + fb.frag.params.length := by
  have hlen := congrArg List.length (h.phiTys hf hk)
  simpa [userTys] using hlen

/-- Every phi node holds a word or a pointer. -/
theorem phiTy_cases (h : Compiled act M cf c C fs d₀) (hf : fs[i]? = some fb)
    (hk : fb.frag.kind = .con .INTERNAL) (hwords : fb.frag.params.all (·.ty.isWord) = true)
    {phi : Nat × IR.Ty} (hphi : phi ∈ fb.phiNodes) : phi.2 = intTy ∨ phi.2 = ptrTy := by
  have hmem : phi.2 ∈ fb.phiNodes.map Prod.snd := List.mem_map_of_mem hphi
  rw [h.phiTys hf hk, List.mem_append, userTys] at hmem
  rcases hmem with hmem | hmem
  · exact .inr (List.eq_of_mem_replicate hmem)
  · obtain ⟨p, hp, hty⟩ := List.mem_map.mp hmem
    exact hty ▸ genTy_cases (List.all_eq_true.mp hwords p hp)

/-- The phi nodes of a fragment get the words of the registers and of the arguments. -/
theorem enterFrag (h : Compiled act M cf c C fs d₀) (hi : 0 < i) (hf : fs[i]? = some fb)
    (hk : fb.frag.kind = .con .INTERNAL) {vs : List MLVal} (hacc : fb.frag.accepts vs = true)
    {pred : BBId} {s : State} (hmem : s.mem = σ.mem) (htrace : s.trace = σ.trace)
    (hinc : ∀ (k : Nat) w, (M.machineWords σ ++ vs.map (·.word))[k]? = some w →
      ∃ phi u, fb.phiNodes[k]? = some phi ∧ C.body.incomingOf phi.1 pred = some u ∧
        u.eval act s.regs = some w) :
    ∃ d' s', Visits (.frags fs 0, d₀) (.stm i fb.frag.body [], d') ∧
      Tracks act M (fb.frag.env vs) σ d' s' ∧ enter act C.body pred fb.bb s = some s' ∧
      d'.config C s' = ⟨fb.bb, C.body.block fb.bb, s'⟩ := by
  obtain ⟨d, d', hstart, hbb, hunused, hlink, hv⟩ := h.visitsFrag hf
  have hvisit := h.visited hv
  obtain ⟨hphis, hnodup⟩ := h.phisOf_frag hf
  rw [← hbb] at hphis
  have hlen := h.phiNodes_length hf hk
  obtain ⟨hvs, -⟩ : vs.length = fb.frag.params.length ∧ _ := by
    simpa [Frag.accepts] using hacc
  have hunique := h.unique fb.frag (by
    rw [← h.inits.frags]
    exact List.mem_map_of_mem (List.mem_of_getElem? hf))
  have hstarts := fragStart_internal (hlink.target ▸ hlink.pcRel) hi
    (by rw [hlink.target, hlen]) (List.nodup_append.mp hunique).1 hstart
  -- the words that come in
  have hwlen : fb.phiNodes.length = (M.machineWords σ ++ vs.map (·.word)).length := by
    rw [hlen, List.length_append, List.length_map, hvs, Machine.machineWords, List.length_map]
    rfl
  have hvals : List.Forall₂ (fun p w => ∃ v, C.body.incomingOf p.1 pred = some v ∧
      v.eval act s.regs = some w) (C.body.phisOf fb.bb)
      (M.machineWords σ ++ vs.map (·.word)) := by
    rw [hphis, List.forall₂_iff_get]
    refine ⟨hwlen, fun k hk hk' => ?_⟩
    obtain ⟨phi, u, hphi, hu, hw⟩ := hinc k _ (List.getElem?_eq_getElem hk')
    rw [List.getElem?_eq_getElem hk] at hphi
    cases hphi
    exact ⟨u, hu, hw⟩
  obtain ⟨s', henter, hmem', htrace', hregs, -⟩ := enter_ok (hphis ▸ hnodup) hvals
  have hwords : (phiSlots fb.phiNodes).map (·.eval act s'.regs)
      = (M.machineWords σ).map some ++ [] ++ vs.map fun v => some v.word := by
    have heq : (phiSlots fb.phiNodes).map (·.eval act s'.regs)
        = (M.machineWords σ ++ vs.map (·.word)).map some := by
      refine List.ext_getElem (by simpa [phiSlots] using hwlen) fun k hk hk' => ?_
      have hk₁ : k < fb.phiNodes.length := by simpa [phiSlots] using hk
      have hk₂ := hwlen ▸ hk₁
      have hval := hregs k fb.phiNodes[k] _ (by rw [hphis, List.getElem?_eq_getElem hk₁])
        (List.getElem?_eq_getElem hk₂)
      simp only [phiSlots, List.getElem_map]
      show (s'.regs fb.phiNodes[k].1).head? = _
      rw [hval]
      rfl
    rw [heq, List.append_nil, List.map_append, List.map_map]
    rfl
  have htys : (phiSlots fb.phiNodes).map (·.getType)
      = List.replicate M.target.numMachineRegs ptrTy ++ [] ++ userTys fb.frag := by
    rw [List.append_nil, ← h.phiTys hf hk, phiSlots, List.map_map]
    rfl
  have hslots : SlotsHold act M σ fb.frag vs s' (phiSlots fb.phiNodes) 0 :=
    ⟨⟨[], rfl, htys⟩, [], rfl, hwords⟩
  have htracks := hstarts.tracks hslots hacc hlink hvisit.computed hvisit.placed
    (hmem'.trans hmem) (htrace'.trans htrace)
  have hcur : d'.curBB = fb.bb := by rw [hstarts.ctx]
  have hrest : d'.rest C = C.body.block fb.bb := by
    rw [← hcur]
    refine Context.rest_of_unused (hcur ▸ hunused.of_body ?_)
    rw [hstarts.ctx]
  exact ⟨d', s', hv, htracks, henter, by rw [Context.config, hcur, hrest]⟩

/-- The code of a `GOTO` leads to the fragment, with the words of its arguments in the
parameters. -/
theorem goto (h : Compiled act M cf c C fs d₀) {frag : Nat} {path : List Nat} {lab : LVar}
    {args : List (Exp .cpp)} {d : Context} {s : State} {vs : List MLVal} {q : Cfg.Config}
    (hv : Visits (.frags fs 0, d₀) (.stm frag (.GOTO lab args) path, d))
    (ht : Tracks act M ρ σ d s) (hvs : Exp.evalArgs M ρ σ args = some vs)
    (hstep : gotoStep M σ lab vs = some q) :
    ∃ (i : Nat) (f : Frag .cpp) (d' : Context) (s' : State), q = .run f.body (f.env vs) σ ∧
      Visits (.frags fs 0, d₀) (.stm i f.body [], d') ∧ Tracks act M (f.env vs) σ d' s' ∧
      Simulation.Plus (next act C.body) (d.config C s) (d'.config C s') := by
  obtain ⟨f, hfind, hstep⟩ := Option.bind_eq_some_iff.mp hstep
  obtain ⟨⟨hk, hacc⟩, ⟨⟩⟩ := Option.ite_none_right_eq_some.mp hstep
  obtain ⟨fb, i, hi, hf, rfl, hmap⟩ := h.fragAt hfind hk
  obtain ⟨d', hhead, hg⟩ := h.head_stop hv rfl
  have hready := hv.ready h.ready
  have hfragMap : d.fragMap lab = some fb := (hv.grows h.ready h.emits).fragMap ▸ hmap
  obtain ⟨-, hwords⟩ : _ ∧ fb.frag.params.all (·.ty.isWord) = true := by
    simpa [Frag.accepts] using hacc
  -- the code of the arguments
  simp only [Stm.head, Stm.codegen] at hhead
  obtain ⟨srcBB, c₁, h₁, h₂⟩ := CodegenM.bind_ok.mp hhead
  cases h₁
  obtain ⟨c₁, c₂, h₁, h₃⟩ := CodegenM.bind_ok.mp h₂
  cases h₁
  obtain ⟨dstFrag, c₁, h₁, h₄⟩ := CodegenM.bind_ok.mp h₃
  obtain ⟨hdst, rfl⟩ := run_deref_ok.mp h₁
  rw [hfragMap] at hdst
  cases hdst
  obtain ⟨⟨⟩, c₂, h₅, h₆⟩ := CodegenM.bind_ok.mp h₄
  obtain ⟨-, rfl⟩ := run_assert_ok.mp h₅
  obtain ⟨extra, c₃, h₇, h₈⟩ := CodegenM.bind_ok.mp h₆
  obtain ⟨us, c₄, h₉, h₁₀⟩ := CodegenM.bind_ok.mp h₈
  obtain ⟨⟨⟩, c₅, h₁₁, h₁₂⟩ := CodegenM.bind_ok.mp h₁₀
  cases h₁₂
  obtain ⟨s₁, -, -, rfl, rfl, extra', hextra', hspecial⟩ := (does_createArgs ht .INTERNAL).of_run h₇
  obtain rfl : extra = extra' := by simpa [FragKind.unused] using hextra'
  obtain ⟨s₂, hst, -, hq, hus⟩ := (Exp.does_evalArgs args ht hvs).of_run h₉
  have hall : List.Forall₂ (Holds act c₄ s₂) (extra ++ us) ((M.machineWords σ).map .ml ++ vs) :=
    List.rel_append (hspecial.imp fun _ _ hu => hu.later hq.toLater) hus
  obtain ⟨s₃, ics, hst', hq', hincoming, hvals⟩ := straight_addFragIncoming
    (fun k phi _ hphi => h.phiTy_cases hf hk hwords (List.mem_of_getElem? hphi)) hall h₁₁
  -- the values that come into the phi nodes
  have hcur : c₅.curBB = c₃.curBB := hst'.curBB.trans hst.curBB
  have hinc : ∀ (k : Nat) w, (M.machineWords σ ++ vs.map (·.word))[k]? = some w →
      ∃ phi u, fb.phiNodes[k]? = some phi ∧ C.body.incomingOf phi.1 c₃.curBB = some u ∧
        u.eval act s₃.regs = some w := by
    intro k w hw
    have hw' : ((((M.machineWords σ).map .ml ++ vs : List MLVal)[k]?).map (·.word)) = some w := by
      rw [← hw, ← List.getElem?_map, List.map_append, List.map_map]
      exact congrArg (fun l => (l ++ _)[k]?) (List.map_id _)
    obtain ⟨v, hv', rfl⟩ := Option.map_eq_some_iff.mp hw'
    obtain ⟨phi, u, hphi, hfindu, hu⟩ := find?_incoming (h.phisOf_frag hf).2
      (P := fun (v : MLVal) u => Is act c₅ s₃ u v.word)
      (fun k v hv => by simpa only [Nat.zero_add] using hvals k v hv) hv'
    refine ⟨phi, u, hphi, hg.incomingOf_eq ?_, hu.eval⟩
    have hnone : (c₃.body.incoming.find? fun p => p.1 = phi.1 ∧ p.2.2 = c₃.curBB) = none := by
      rw [List.find?_eq_none]
      intro p hp
      simp only [decide_eq_true_eq, not_and]
      exact fun _ => (hready.cur _ rfl).2 p hp
    have hc₄ : c₄.body.incoming = c₃.body.incoming := (StaysIn.of_run h₉).incoming
    show ((c₅.body.incoming.find? fun p => p.1 = phi.1 ∧ p.2.2 = c₃.curBB).map _) = some u
    rw [hincoming, hc₄, List.find?_append, hnone, Option.none_or, hfindu]
    rfl
  -- the jump
  have hq₃ := hq.trans hq'
  obtain ⟨d', s', hvisit, ht', henter, hconfig⟩ := h.enterFrag hi hf hk hacc
    (hq₃.mem.trans ht.mem) (hq₃.trace.trans ht.trace) hinc
  refine ⟨i, fb.frag, d', s', rfl, hvisit, ht', ?_⟩
  have hterm : [(c₅.curBB, (.term (.br fb.bb) : Inst BBId Sym))].filterMap
      (fun p => if p.1 = c₅.curBB then some p.2 else none) = [.term (.br fb.bb)] := by simp
  have hblock := block_eq_of_ends rfl hterm hg
  have hreach := (hst.trans hst').reaches_quiet (C := C) hq₃.trace ⟨_, hblock.symm⟩
  have hstep : next act C.body (c₅.config C s₃) = some (d'.config C s') := by
    rw [Context.config, Context.rest_eq hblock]
    show (enter act C.body c₅.curBB fb.bb s₃).map _ = _
    rw [hcur, henter, hconfig]
    rfl
  exact .of_star hreach ⟨_, hstep, .refl⟩

end Compiled

/-! ### Jumps to arms -/

/-- At a point with more bindings and the same registers. -/
theorem Tracks.mono {d d' : Context} {s : State} (ht : Tracks act M ρ σ d s)
    (hlink : Linked act M d') (hle : d.nextId ≤ d'.nextId)
    (hbound : ∀ lv u, d.vMap lv = some u → d'.vMap lv = some u)
    (hregs : d'.regState.val = d.regState.val) : Tracks act M ρ σ d' s := by
  have hl : Later d d' s s := ⟨hle, fun _ _ => rfl⟩
  refine ⟨hlink, fun x v hx => ?_, fun r hr => ?_, fun r hr => ?_, ht.mem, ht.trace⟩
  · obtain ⟨u, hu, hv⟩ := ht.env x v hx
    exact ⟨u, hbound x u hu, hv.later hl⟩
  · obtain ⟨u, hu, hv⟩ := ht.reg r hr
    exact ⟨u, by rw [hregs, hu], hv.later hl⟩
  · rw [hregs]
    exact ht.stack r hr

/-- Code generation comes to every arm, and the arms before leave the variables alone. -/
theorem Emits.visits_arm {frag : Nat} {saved : CMRegState} {ks : List (Stm .cpp)}
    {path : List Nat} {i j : Nat} {d d' : Context} {k : Stm .cpp}
    (h : Emits (.arms frag saved ks path i) d d') (hk : ks[j]? = some k) :
    ∃ d₁ ks', Visits (.arms frag saved ks path i, d) (.arms frag saved (k :: ks') path (i + j), d₁)
      ∧ d.nextId ≤ d₁.nextId ∧ ∀ lv u, d.vMap lv = some u → d₁.vMap lv = some u := by
  induction ks generalizing i j d with
  | nil => simp at hk
  | cons k' ks ih =>
      cases h with
      | arm harm hrest =>
          cases j with
          | zero =>
              obtain rfl : k' = k := by simpa using hk
              exact ⟨d, ks, .refl, Nat.le_refl _, fun _ _ => id⟩
          | succ j =>
              obtain ⟨d₁, ks', hv, hle, hbound⟩ := ih hrest (by simpa using hk)
              have hg := harm.grows (by rintro b ⟨⟩; exact nofun)
              refine ⟨d₁, ks', ?_, Nat.le_trans hg.nextId_le hle, fun lv u hu =>
                hbound lv u (harm.vMap_bound rfl hu)⟩
              rw [Nat.add_right_comm] at hv
              exact .head (.laterArm harm) hv

namespace Compiled

variable {frag : Nat} {path : List Nat} {d : Context} {s : State}

/-- An arm starts with the variables and the registers of the statement. -/
theorem enterArm (h : Compiled act M cf c C fs d₀) {ks : List (Stm .cpp)} {i : Nat}
    {k : Stm .cpp} (hv : Visits (.frags fs 0, d₀) (.arms frag d.regState ks path 0, d))
    (ht : Tracks act M ρ σ d s) (hk : ks[i]? = some k) (pred : BBId) :
    ∃ d', Visits (.frags fs 0, d₀) (.stm frag k (i :: path), d') ∧ Tracks act M ρ σ d' s ∧
      enter act C.body pred (.stm frag (i :: path)) s = some s ∧
      d'.config C s = ⟨.stm frag (i :: path), C.body.block (.stm frag (i :: path)), s⟩ := by
  obtain ⟨C', he⟩ := hv.emits h.ready h.emits
  obtain ⟨d₁, ks', hv₁, hle, hbound⟩ := he.visits_arm hk
  rw [Nat.zero_add] at hv₁
  have hv₂ := hv.trans hv₁
  have hunused := (hv₂.ready h.ready).ahead (.stm frag (i :: path))
    (.inl ⟨[], i, Nat.le_refl _, rfl⟩)
  have hv₃ : Visits (.frags fs 0, d₀)
      (.stm frag k (i :: path), armStart frag d.regState path i d₁) := hv₂.tail .arm
  refine ⟨_, hv₃, ht.mono (h.linkedAt hv₃) hle hbound rfl, ?_, ?_⟩
  · exact h.enter_arm pred frag i path s
  · have hrest := Context.rest_of_unused (C := C) (d := armStart frag d.regState path i d₁)
      (hunused.of_body rfl)
    rw [Context.config, hrest]
    rfl

/-- The code of a `BRANCH` leads to the arm for the outcome of the test. -/
theorem branch (h : Compiled act M cf c C fs d₀) {oper : CfgPrim.Branch .cpp}
    {args : List (Exp .cpp)} {prob : Int} {trueK falseK : Stm .cpp} {vs : List MLVal} {b : Bool}
    (hv : Visits (.frags fs 0, d₀) (.stm frag (.BRANCH oper args prob trueK falseK) path, d))
    (ht : Tracks act M ρ σ d s) (hvs : Exp.evalArgs M ρ σ args = some vs)
    (hb : oper.eval M σ vs = some b) :
    ∃ (i : Nat) (d' : Context) (s' : State),
      Visits (.frags fs 0, d₀) (.stm frag (if b then trueK else falseK) (i :: path), d') ∧
      Tracks act M ρ σ d' s' ∧
      Simulation.Plus (next act C.body) (d.config C s) (d'.config C s') := by
  obtain ⟨us, c₁, cond, c₂, d₁, h₁, h₃, hd₁, -, hblock, hv₁⟩ := h.branch_end hv
  obtain ⟨s₁, hst₁, -, hq₁, hus⟩ := (Exp.does_evalArgs args ht hvs).of_run h₁
  obtain ⟨s₂, hst₂, -, hq₂, hcond⟩ :=
    (CfgPrim.Branch.does_eval (ht.quiet hq₁) hus hb).of_run h₃
  have ht₂ := (ht.quiet hq₁).quiet hq₂
  have hreach := (hst₁.trans hst₂).reaches_quiet (C := C) (hq₁.trans hq₂).trace ⟨_, hblock.symm⟩
  -- the arm
  have hk : [trueK, falseK][if b then 0 else 1]? = some (if b then trueK else falseK) := by
    cases b <;> rfl
  obtain ⟨d', hv', ht', henter, hconfig⟩ := h.enterArm hv₁
    (ht₂.mono (h.linkedAt hv₁) (by rw [hd₁]) (by rw [hd₁]; exact fun _ _ => id) (by rw [hd₁])) hk
    c₂.curBB
  refine ⟨_, d', s₂, hv', ht', .of_star hreach ⟨_, ?_, .refl⟩⟩
  rw [Context.config, Context.rest_eq hblock, hconfig]
  simp only [next, exit_condBr hcond.eval, henter, Option.map_some]

/-- The target of a `switch` for a number below the number of arms. -/
theorem find?_switch {n w : Nat} (hn : w < n) (hw : w < 2 ^ 32) :
    (((List.range n).map fun (i : Nat) =>
      ((BitVec.ofInt 32 i).toNat, BBId.stm frag (i :: path))).find? fun p => p.1 = w)
      = some (w, .stm frag (w :: path)) := by
  have htag : ∀ i : Nat, (BitVec.ofInt 32 i).toNat = i % 2 ^ 32 := fun i => by
    rw [BitVec.ofInt_natCast, BitVec.toNat_ofNat]
  simp only [htag]
  refine List.find?_eq_some_iff_getElem.mpr ⟨by simp, w, by simpa using hn, ?_, fun j hj => ?_⟩
  · simp only [List.getElem_map, List.getElem_range, Nat.mod_eq_of_lt hw]
  · simp only [List.getElem_map, List.getElem_range, Nat.mod_eq_of_lt (Nat.lt_trans hj hw)]
    simpa using Nat.ne_of_lt hj

/-- The code of a `SWITCH` leads to the arm with the number of its argument. -/
theorem switch (h : Compiled act M cf c C fs d₀) {arg : Exp .cpp} {cases : List (Stm .cpp)}
    {v : MLVal} {k : Stm .cpp}
    (hv : Visits (.frags fs 0, d₀) (.stm frag (.SWITCH arg cases) path, d))
    (ht : Tracks act M ρ σ d s) (hval : arg.eval M ρ σ = some v)
    (hk : cases[(v.word.setWidth 32).toNat]? = some k) :
    ∃ (i : Nat) (d' : Context) (s' : State),
      Visits (.frags fs 0, d₀) (.stm frag k (i :: path), d') ∧ Tracks act M ρ σ d' s' ∧
      Simulation.Plus (next act C.body) (d.config C s) (d'.config C s') := by
  obtain ⟨d₁, hhead, hg, hv₁⟩ := h.head_arms hv rfl
  obtain ⟨u, c₁, h₁, h₂⟩ := CodegenM.bind_ok.mp hhead
  obtain ⟨u', c₂, h₃, h₄⟩ := CodegenM.bind_ok.mp h₂
  obtain ⟨u'', c₃, h₅, h₆⟩ := CodegenM.bind_ok.mp h₄
  obtain ⟨s₁, hst₁, -, hq₁, hu⟩ := (Exp.does_eval arg ht hval).of_run h₁
  have hint : (asInt u).Does act c₁ s₁ fun u' c' s' => Quiet c₁ c' s₁ s' ∧
      Is act c' s' u' v.word ∧ u'.getType = intTy :=
    .asInt hu.is hu.like fun u' c' s' hq hu' hty => ⟨hq, hu', hty⟩
  obtain ⟨s₂, hst₂, -, hq₂, hu', hty⟩ := hint.of_run h₃
  have htrunc : (createTrunc u' i32Ty).Does act c₂ s₂ fun u'' c' s' => Quiet c₂ c' s₂ s' ∧
      Is act c' s' u'' ((v.word.setWidth 32).setWidth 64) := by
    refine .createCast hu' (fun hty' => ?_) (fun _ => ⟨by rw [hty]; rfl, rfl⟩)
      fun u'' c' s' hq hu'' _ => ⟨hq, hu''⟩
    rw [hty] at hty'
    cases hty'
  obtain ⟨s₃, hst₃, -, hq₃, hu''⟩ := htrunc.of_run h₅
  have hq := hq₁.trans (hq₂.trans hq₃)
  have ht₃ := ht.quiet hq
  cases h₆
  -- the end of the block, after the block of the default case
  have hcur : c₃.curBB = d.curBB := hst₃.curBB.trans (hst₂.curBB.trans hst₁.curBB)
  have hne : BBId.new c₃.nextBB ≠ c₃.curBB := by
    intro heq
    have hlt : c₃.nextBB < d.nextBB :=
      (hv.ready h.ready).old _ rfl c₃.nextBB (hcur.symm.trans heq.symm)
    rw [hq.ctx] at hlt
    exact absurd hlt (Nat.lt_irrefl _)
  set t : Terminator BBId Sym := .switch u'' (.new c₃.nextBB)
    ((List.range cases.length).map fun (i : Nat) =>
      ((BitVec.ofInt 32 i).toNat, BBId.stm frag (i :: path)))
  have hterm : [(BBId.new c₃.nextBB, (.term .unreachable : Inst BBId Sym)),
      (c₃.curBB, .term t)].filterMap (fun p => if p.1 = c₃.curBB then some p.2 else none)
      = [.term t] := by simp [hne]
  have hblock := block_eq_of_ends (List.append_assoc ..) hterm hg
  have hreach := (hst₁.trans (hst₂.trans hst₃)).reaches_quiet (C := C) hq.trace ⟨_, hblock.symm⟩
  obtain ⟨d', hv', ht', henter, hconfig⟩ := h.enterArm hv₁
    (ht₃.mono (h.linkedAt hv₁) (Nat.le_refl _) (fun _ _ => id) rfl) hk c₃.curBB
  refine ⟨_, d', s₃, hv', ht', .of_star hreach ⟨_, ?_, .refl⟩⟩
  rw [Context.config, Context.rest_eq hblock, hconfig]
  have hexit : t.exit act s₃.regs
      = some (.goto (.stm frag ((v.word.setWidth 32).toNat :: path))) := by
    have hw : ((v.word.setWidth 32).setWidth 64).toNat = (v.word.setWidth 32).toNat := by
      rw [BitVec.toNat_setWidth_of_le (by omega)]
    show (u''.eval act s₃.regs >>= fun w => some (Exit.goto _)) = _
    rw [hu''.eval]
    show some (Exit.goto (((List.find? _ _).map Prod.snd).getD _)) = _
    rw [hw, find?_switch (List.getElem?_eq_some_iff.mp hk).1 (v.word.setWidth 32).isLt]
    rfl
  simp only [next, hexit, henter, Option.map_some]

end Compiled

end SmlnjCfg.Codegen
