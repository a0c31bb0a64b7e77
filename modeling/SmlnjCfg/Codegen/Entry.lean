import SmlnjCfg.Codegen.Regs
import SmlnjCfg.Codegen.Fresh

/-!
# `SmlnjCfg.Codegen.Entry`: where fragments find their parameters

The entry of a cluster finds the special registers and its parameters in the
arguments of the function, and any other fragment in its phi nodes. On a target
with PC-relative addresses there is no base pointer between them.

* `InitsNodes`: the phi nodes and the fragment map after initialization.
* `Starts`: the context at the start of a fragment.
* `fragStart_std`, `fragStart_internal`: the two kinds of fragments.
* `Emits.visits_frag`: code generation comes to every fragment.
-/

set_option autoImplicit false

namespace SmlnjCfg.Codegen

open Cfg Gen

/-! ### Phi nodes -/

/-- The phi nodes that initialization makes, by fragment, and the map of fragments. -/
structure InitsNodes (i : Nat) (fs : List FragBB) (c c' : Context) : Prop where
  phis : ∃ ps, c'.body.phis = c.body.phis ++ ps ∧ ∀ p ∈ ps, ∃ j, i ≤ j ∧ p.1 = .stm j []
  nodes : (∀ p ∈ c.body.phis, ∀ j, i ≤ j → p.1 ≠ .stm j []) → ∀ (j : Nat) (f : FragBB),
    fs[j]? = some f →
    c'.body.phisOf (.stm (i + j) []) = f.phiNodes ∧ (f.phiNodes.map Prod.fst).Nodup
  fragMap : ∀ lab, c'.fragMap lab = (c.fragMap lab).or (fs.find? fun f => f.frag.lab == lab)

/-- Only an internal fragment gets phi nodes, and their numbers are fresh and in a row, so that
they are distinct. -/
theorem initPhis_nodes {bb : BBId} {frag : Frag .cpp} {phis : List (Nat × IR.Ty)} {c c' : Context}
    (h : initPhis bb frag c = .ok (phis, c')) :
    c'.body.phis = c.body.phis ++ phis.map (fun p => (bb, p.1, p.2)) ∧
      (phis.map Prod.fst).Nodup ∧ c'.fragMap = c.fragMap := by
  unfold initPhis at h
  split at h
  next hk =>
    obtain ⟨tys, c₁, h₁, h⟩ := CodegenM.bind_ok.mp h
    rw [hk] at h₁
    cases h₁
    obtain ⟨⟨⟩, c₂, h₂, h⟩ := CodegenM.bind_ok.mp h
    cases h₂
    obtain ⟨ids, c₃, h₃, h⟩ := CodegenM.bind_ok.mp h
    rw [createPHIs_ok] at h₃
    cases h₃
    obtain ⟨rfl, rfl⟩ := CodegenM.pure_ok.mp h
    refine ⟨rfl, ?_, rfl⟩
    rw [List.map_fst_zip (by simp)]
    exact List.nodup_range' ..
  next =>
    obtain ⟨rfl, rfl⟩ := CodegenM.pure_ok.mp h
    exact ⟨by simp, List.nodup_nil, rfl⟩

/-- The initialization of a fragment adds its phi nodes to the block it starts in, and the
fragment to the map unless its label is taken: the source inserts into the map and does not
overwrite. -/
theorem initFrag_nodes {i : Nat} {frag : Frag .cpp} {f : FragBB} {c c' : Context}
    (h : initFrag i frag c = .ok (f, c')) :
    f.frag = frag ∧ c'.body.phis = c.body.phis ++ f.phiNodes.map (fun p => (.stm i [], p.1, p.2)) ∧
      (f.phiNodes.map Prod.fst).Nodup ∧
      ∀ lab, c'.fragMap lab = (c.fragMap lab).or (if frag.lab == lab then some f else none) := by
  obtain ⟨⟨⟩, c₁, h₁, h⟩ := CodegenM.bind_ok.mp h
  have hc₁ := onlyBlocks_init i frag.body [] true c () c₁ h₁
  obtain ⟨phis, c₂, h₂, h⟩ := CodegenM.bind_ok.mp h
  obtain ⟨hphis, hnodup, hmap⟩ := initPhis_nodes h₂
  obtain ⟨⟨⟩, c₃, h₃, h⟩ := CodegenM.bind_ok.mp h
  cases h₃
  obtain ⟨rfl, rfl⟩ := CodegenM.pure_ok.mp h
  have hphis₁ : c₁.body.phis = c.body.phis := by rw [hc₁]
  have hmap₂ : c₂.fragMap = c.fragMap := by rw [hmap, hc₁]
  refine ⟨rfl, by rw [← hphis₁]; exact hphis, hnodup, fun lab => ?_⟩
  show (if lab = frag.lab ∧ (c₂.fragMap frag.lab).isNone = true then _ else c₂.fragMap lab) = _
  rw [hmap₂]
  by_cases heq : frag.lab = lab
  · subst heq
    cases hlab : c.fragMap frag.lab <;> simp
  · have hbeq : (frag.lab == lab) = false := beq_eq_false_iff_ne.mpr heq
    rw [if_neg fun hand => heq hand.1.symm, hbeq]
    simp

/-- The phi nodes that are added for later fragments are in other blocks, so those of an earlier
one stay the same. -/
theorem phisOf_append {c c' : Context} {b : BBId} {ps : List (BBId × Nat × IR.Ty)}
    (h : c'.body.phis = c.body.phis ++ ps) (hps : ∀ p ∈ ps, p.1 ≠ b) :
    c'.body.phisOf b = c.body.phisOf b := by
  have hnil : ps.filterMap (fun p => if p.1 = b then some p.2 else none) = [] := by
    rw [List.filterMap_eq_nil_iff]
    intro p hp
    rw [if_neg (hps p hp)]
  rw [IR.Body.phisOf, h, List.filterMap_append, hnil, List.append_nil]
  rfl

/-- The phi nodes and the map after all fragments, by induction on the list. The numbers of the
fragments keep their blocks apart, which is why no phi node may be there before. -/
theorem initFrags_nodes {frags : List (Frag .cpp)} {i : Nat} {fs : List FragBB} {c c' : Context}
    (h : initFrags frags i c = .ok (fs, c')) : InitsNodes i fs c c' := by
  induction frags generalizing i fs c with
  | nil =>
      obtain ⟨rfl, rfl⟩ := CodegenM.pure_ok.mp h
      exact ⟨⟨[], by simp⟩, by simp, by simp⟩
  | cons frag frags ih =>
      obtain ⟨f, c₁, h₁, h⟩ := CodegenM.bind_ok.mp h
      obtain ⟨fs', c₂, h₂, h⟩ := CodegenM.bind_ok.mp h
      obtain ⟨rfl, rfl⟩ := CodegenM.pure_ok.mp h
      obtain ⟨rfl, hphis, hnodup, hmap⟩ := initFrag_nodes h₁
      have hrest := ih h₂
      obtain ⟨qs, hqs, hqmem⟩ := hrest.phis
      refine ⟨⟨f.phiNodes.map (fun p => (.stm i [], p.1, p.2)) ++ qs, ?_, fun p hp => ?_⟩,
        fun hfree j g hg => ?_, fun lab => ?_⟩
      · rw [hqs, hphis, List.append_assoc]
      · rcases List.mem_append.mp hp with hp | hp
        · obtain ⟨q, -, rfl⟩ := List.mem_map.mp hp
          exact ⟨i, Nat.le_refl _, rfl⟩
        · obtain ⟨j, hj, hbb⟩ := hqmem p hp
          exact ⟨j, Nat.le_of_succ_le hj, hbb⟩
      · cases j with
        | zero =>
            obtain rfl : f = g := by simpa using hg
            refine ⟨?_, hnodup⟩
            -- the nodes of the later fragments are in blocks with greater numbers
            have hlater : ∀ p ∈ qs, p.1 ≠ .stm (i + 0) [] := by
              intro p hp hbb
              obtain ⟨j, hj, hbb'⟩ := hqmem p hp
              rw [hbb'] at hbb
              injection hbb with hij
              omega
            -- and those that were there before are in no block from `i` on
            have hbefore : c.body.phis.filterMap
                (fun p => if p.1 = BBId.stm i [] then some p.2 else none) = [] := by
              rw [List.filterMap_eq_nil_iff]
              intro p hp
              rw [if_neg (hfree p hp i (Nat.le_refl _))]
            rw [phisOf_append hqs hlater, IR.Body.phisOf, hphis, List.filterMap_append,
              Nat.add_zero, hbefore, List.filterMap_map]
            simp
        | succ j =>
            have hfree' : ∀ p ∈ c₁.body.phis, ∀ j, i + 1 ≤ j → p.1 ≠ .stm j [] := by
              intro p hp j hj
              rw [hphis] at hp
              rcases List.mem_append.mp hp with hp | hp
              · exact hfree p hp j (Nat.le_of_succ_le hj)
              · obtain ⟨q, -, rfl⟩ := List.mem_map.mp hp
                intro hbb
                injection hbb with hij
                omega
            have hnode := hrest.nodes hfree' j g (by simpa using hg)
            rwa [Nat.add_right_comm] at hnode
      · rw [hrest.fragMap, hmap, Option.or_assoc, List.find?_cons]
        cases f.frag.lab == lab <;> rfl

/-! ### Runs from the function of a cluster -/

/-- A successful run of `cluster::codegen`, together with the phi nodes that its initialization
made. -/
structure ClusterGen (cf : ClusterFn) (c C : Context) (fs : List FragBB) (d : Context) : Prop
    extends ClusterRun cf c C fs d where
  nodes : InitsNodes 0 fs (clusterStart cf c) d

/-- Every successful run is of that form: the start, the initialization of the fragments and then
their code. -/
theorem clusterGen_of_codegen {cf : ClusterFn} {c C : Context}
    (h : codegenCluster cf c = .ok ((), C)) : ∃ fs d, ClusterGen cf c C fs d := by
  obtain ⟨⟨⟩, c₁, h₁, h₂⟩ := CodegenM.bind_ok.mp h
  cases h₁
  obtain ⟨fs, d, h₃, h₄⟩ := CodegenM.bind_ok.mp h₂
  have hinits := initFrags_ok h₃
  exact ⟨fs, d, ⟨hinits, emits_frags fs hinits.placed h₄⟩, initFrags_nodes h₃⟩

namespace ClusterGen

variable {cf : ClusterFn} {c C d₀ : Context} {fs : List FragBB}

/-- What is added after the initialization: only to the first fragment's block and to blocks that
were not in use yet. -/
theorem grows (h : ClusterGen cf c C fs d₀) :
    Grows (fun b => (Code.frags fs 0).cur d₀ = some b ∨ Unused d₀ b) d₀ C :=
  Visits.grows (p := (.frags fs 0, d₀)) .refl h.ready h.emits

/-- The phi nodes in the block of a fragment, at the end: those of its initialization, since the
code of the fragments adds phi nodes to new blocks only. -/
theorem phisOf_frag (h : ClusterGen cf c C fs d₀) {j : Nat} {f : FragBB} (hf : fs[j]? = some f) :
    C.body.phisOf (.stm j []) = f.phiNodes ∧ (f.phiNodes.map Prod.fst).Nodup := by
  have hg := h.grows
  have hnode := h.nodes.nodes (fun p hp => by cases hp) j f hf
  have hold : Old d₀ (.stm j []) := nofun
  rw [Nat.zero_add] at hnode
  rw [hg.phisOf_eq hold]
  exact hnode

/-- The blocks of arms have no phi nodes, since a `SWITCH` or a `BRANCH` enters each of its arms
from one place. -/
theorem phisOf_arm (h : ClusterGen cf c C fs d₀) (frag i : Nat) (path : List Nat) :
    C.body.phisOf (.stm frag (i :: path)) = [] := by
  have hold : Old d₀ (.stm frag (i :: path)) := nofun
  rw [h.grows.phisOf_eq hold, IR.Body.phisOf, List.filterMap_eq_nil_iff]
  intro p hp
  obtain ⟨ps, hps, hmem⟩ := h.nodes.phis
  rw [hps] at hp
  rcases List.mem_append.mp hp with hp | hp
  · cases hp
  · obtain ⟨j, -, hbb⟩ := hmem p hp
    rw [if_neg]
    intro hb
    rw [hbb] at hb
    injection hb with _ hb
    cases hb

/-- The fragment with a label is the first one of the list that has it. -/
theorem fragMap_eq (h : ClusterGen cf c C fs d₀) (lab : LVar) :
    C.fragMap lab = fs.find? fun f => f.frag.lab == lab := by
  rw [h.grows.fragMap, h.nodes.fragMap]
  rfl

end ClusterGen

/-- The arguments of a function as values, numbered and with their types. -/
def argSlots (fnTy : List IR.Ty) : List Val := fnTy.mapIdx IR.Value.arg

/-- The phi nodes as values, which is what a fragment that is entered by a `GOTO` finds in place
of arguments. -/
def phiSlots (phis : List (Nat × IR.Ty)) : List Val := phis.map fun p => .inst p.1 p.2

/-- At `c'` a fragment starts, with the special registers and, after `skip` others,
the parameters in `slots`. -/
structure Starts (f : FragBB) (slots : List Val) (skip : Nat) (c c' : Context) : Prop where
  ctx : c' = { c with vMap := c'.vMap, curBB := f.bb, regState := c'.regState }
  reg : ∀ (k : Nat) r, c.target.machineRegs[k]? = some r →
    ∃ u, slots[k]? = some u ∧ c'.regState.val r = some u
  var : ∀ (k : Nat) p, f.frag.params[k]? = some p →
    ∃ u, slots[c.target.numMachineRegs + skip + k]? = some u ∧ c'.vMap p.name = some u

/-- The parameters are bound to values in a row. The names have to be distinct and not yet bound,
since the map of variables keeps a binding that it has. -/
theorem bindParams_slots {val : Nat → Gen Val} {slots : List Val} {ps : List Param} {i : Nat}
    {c c' : Context} (hval : ∀ (j : Nat) u, slots[j]? = some u → ∀ m,
      (val j).run { c with vMap := m } = .ok (u, { c with vMap := m }))
    (hlen : i + ps.length ≤ slots.length) (hnodup : (ps.map Param.name).Nodup)
    (hfresh : ∀ p ∈ ps, c.vMap p.name = none) (h : bindParams val ps i c = .ok ((), c')) :
    c' = { c with vMap := c'.vMap } ∧ ∀ (k : Nat) p, ps[k]? = some p →
      ∃ u, slots[i + k]? = some u ∧ c'.vMap p.name = some u := by
  have hslot : ∀ k < ps.length, slots[i + k]? = some ((slots[i + k]?).getD (.undef ptrTy)) := by
    intro k hk
    rw [List.getElem?_eq_getElem (by omega)]
    rfl
  obtain ⟨m, hrun, hbound, -⟩ := bindParams_ok val (fun j => (slots[j]?).getD (.undef ptrTy)) ps i
    (fun k hk m => hval _ _ (hslot k hk) m) hnodup hfresh
  rw [hrun] at h
  cases h
  refine ⟨rfl, fun k p hp => ⟨_, hslot k ?_, hbound k p hp⟩⟩
  exact (List.getElem?_eq_some_iff.mp hp).1

/-- A target with PC-relative addressing passes no base pointer. -/
theorem usesBasePtr_of_pcRel {t : TargetInfo} (h : t.hasPCRel = true) : t.usesBasePtr = false := by
  rw [TargetInfo.usesBasePtr, h]
  rfl

/-- There is no base pointer, so only the special registers and, for a continuation, the two
unused arguments come before the parameters. -/
theorem argInfo_of_pcRel {t : TargetInfo} (h : t.hasPCRel = true) (needs : Bool)
    (kind : FragKind) :
    argInfo t needs kind = ⟨t.numMachineRegs, 0, if kind = .STD_CONT then 2 else 0⟩ := by
  cases kind <;> simp [argInfo, usesBasePtr_of_pcRel h]

/-- The entry of a cluster: its parameters come after the special registers and after two unused
arguments if the cluster is a continuation. -/
theorem fragStart_std {f : FragBB} {kind : FragKind} {fn : Fn} {c c' : Context}
    (hpc : c.target.hasPCRel = true) (hfn : c.curFn = some fn)
    (hk : f.frag.kind = .con kind)
    (htys : fn.fnTy.length = c.target.numMachineRegs + (if kind = .STD_CONT then 2 else 0)
      + f.frag.params.length)
    (hnodup : (f.frag.params.map Param.name).Nodup) (h : fragStart 0 f c = .ok ((), c')) :
    Starts f (argSlots fn.fnTy) (if kind = .STD_CONT then 2 else 0) c c' := by
  have harg : ∀ (c : Context), c.curFn = some fn → ∀ (j : Nat) u,
      (argSlots fn.fnTy)[j]? = some u → (getArg j).run c = .ok (u, c) := by
    intro c hfn j u hu
    rw [argSlots, List.getElem?_mapIdx, Option.map_eq_some_iff] at hu
    obtain ⟨ty, hty, rfl⟩ := hu
    exact run_getArg.mpr ⟨rfl, fn, ty, hfn, hty, rfl⟩
  obtain ⟨⟨⟩, c₁, h₁, h₂⟩ := CodegenM.bind_ok.mp h
  cases h₁
  obtain ⟨info, c₂, h₃, h₄⟩ := CodegenM.bind_ok.mp h₂
  rw [hk] at h₃
  cases h₃
  obtain ⟨⟨⟩, c₃, h₅, h₆⟩ := CodegenM.bind_ok.mp h₄
  obtain ⟨val, hregs, hmach, -, -⟩ := setupRegs_ok (i := 0)
    (c := { c with vMap := fun _ => none, curBB := f.bb }) hfn CMRegId.nodup_all
    (by rw [Nat.zero_add, htys]; exact Nat.le_trans (Nat.le_add_right _ _) (Nat.le_add_right _ _))
  rw [hregs] at h₅
  cases h₅
  obtain ⟨⟨⟩, c₄, h₇, h₈⟩ := CodegenM.bind_ok.mp h₆
  obtain ⟨c₅, c₆, h₉, h₁₀⟩ := CodegenM.bind_ok.mp h₇
  cases h₉
  have huses : c.target.usesBasePtr = false := usesBasePtr_of_pcRel hpc
  simp only [huses, Bool.false_and, Bool.false_eq_true, if_false] at h₁₀
  cases h₁₀
  set c₀ : Context := { c with vMap := fun _ => none, curBB := f.bb, regState := ⟨val, none⟩ }
  have hlen : (argSlots fn.fnTy).length = fn.fnTy.length := List.length_mapIdx
  obtain ⟨hctx, hvar⟩ := bindParams_slots (c := c₀)
    (fun j u hu m => harg { c₀ with vMap := m } hfn j u hu) (by
      rw [hlen, htys]
      cases kind <;> exact Nat.le_refl _) hnodup (fun p hp => rfl) h₈
  have hregs' : c'.regState = ⟨val, none⟩ := by rw [hctx]
  refine ⟨by rw [hregs']; exact hctx, fun k r hr => ?_, fun k p hp => ?_⟩
  · obtain ⟨ty, hty, hval⟩ := hmach k r hr
    rw [Nat.zero_add] at hty hval
    refine ⟨.arg k ty, ?_, by rw [hregs']; exact hval⟩
    rw [argSlots, List.getElem?_mapIdx, hty]
    rfl
  · obtain ⟨u, hu, hbound⟩ := hvar k p hp
    refine ⟨u, ?_, hbound⟩
    cases kind <;> exact hu

/-- A fragment that is entered by a `GOTO` finds the special registers and its parameters in its
phi nodes, with nothing between them. -/
theorem fragStart_internal {i : Nat} {f : FragBB} {c c' : Context}
    (hpc : c.target.hasPCRel = true) (hi : 0 < i)
    (hlen : f.phiNodes.length = c.target.numMachineRegs + f.frag.params.length)
    (hnodup : (f.frag.params.map Param.name).Nodup) (h : fragStart i f c = .ok ((), c')) :
    Starts f (phiSlots f.phiNodes) 0 c c' := by
  have hphi : ∀ (c : Context) (j : Nat) u, (phiSlots f.phiNodes)[j]? = some u →
      (phiAt f.phiNodes j).run c = .ok (u, c) := by
    intro c j u hu
    rw [phiSlots, List.getElem?_map, Option.map_eq_some_iff] at hu
    obtain ⟨phi, hphi, rfl⟩ := hu
    exact run_phiAt.mpr ⟨rfl, phi, hphi, rfl⟩
  obtain ⟨⟨⟩, c₁, h₁, h₂⟩ := CodegenM.bind_ok.mp h
  cases h₁
  have hi' : (i == 0) = false := beq_eq_false_iff_ne.mpr (Nat.ne_of_gt hi)
  simp only [hi', Bool.false_eq_true, if_false] at h₂
  obtain ⟨⟨⟩, c₂, h₃, h₄⟩ := CodegenM.bind_ok.mp h₂
  obtain ⟨hk, rfl⟩ := run_assert_ok.mp h₃
  obtain ⟨info, c₃, h₅, h₆⟩ := CodegenM.bind_ok.mp h₄
  obtain hk : f.frag.kind = .con .INTERNAL := by simpa using hk
  rw [hk] at h₅
  cases h₅
  obtain ⟨c₃, c₄, h₇, h₈⟩ := CodegenM.bind_ok.mp h₆
  cases h₇
  obtain ⟨⟨⟩, c₅, h₉, h₁₀⟩ := CodegenM.bind_ok.mp h₈
  have hlen' : 0 + c.target.machineRegs.length ≤ f.phiNodes.length := by
    rw [hlen, Nat.zero_add]
    exact Nat.le_add_right _ _
  obtain ⟨val, hregs, hmach, -⟩ := setupPhiRegs_ok f.phiNodes (i := 0)
    (c := { c with vMap := fun _ => none, curBB := f.bb }) (TargetInfo.nodup_machineRegs _) hlen'
  rw [hregs] at h₉
  cases h₉
  obtain ⟨⟨⟩, c₆, h₁₁, h₁₂⟩ := CodegenM.bind_ok.mp h₁₀
  have hinfo := argInfo_of_pcRel hpc (needsBasePtr c) .INTERNAL
  have hbase : (argInfo c.target (needsBasePtr c) .INTERNAL).basePtr = 0 := by rw [hinfo]
  set c₀ : Context :=
    { c with vMap := fun _ => none, curBB := f.bb, regState := { c.regState with val := val } }
  have hrun : setupPhiBase f.phiNodes (argInfo c.target (needsBasePtr c) .INTERNAL) c₀
      = .ok ((), c₆) := h₁₁
  rw [setupPhiBase, if_neg (not_not_intro hbase)] at hrun
  obtain ⟨-, hc₆⟩ := CodegenM.pure_ok.mp hrun
  subst hc₆
  have hslots : (phiSlots f.phiNodes).length = f.phiNodes.length := List.length_map _
  have hfirst : (argInfo c.target (needsBasePtr c) .INTERNAL).nExtra
      + (argInfo c.target (needsBasePtr c) .INTERNAL).basePtr = c.target.numMachineRegs := by
    rw [hinfo]
    rfl
  obtain ⟨hctx, hvar⟩ := bindParams_slots (c := c₀)
    (fun j u hu m => hphi { c₀ with vMap := m } j u hu)
    (by rw [hslots, hlen]; exact Nat.le_of_eq (congrArg (· + _) hfirst)) hnodup (fun p hp => rfl)
    h₁₂
  have hregs' : c'.regState = { c.regState with val := val } := by rw [hctx]
  refine ⟨by rw [hregs']; exact hctx, fun k r hr => ?_, fun k p hp => ?_⟩
  · obtain ⟨phi, hphi', hval⟩ := hmach k r hr
    rw [Nat.zero_add] at hphi'
    refine ⟨.inst phi.1 phi.2, ?_, by rw [hregs']; exact hval⟩
    rw [phiSlots, List.getElem?_map, hphi']
    rfl
  · obtain ⟨u, hu, hbound⟩ := hvar k p hp
    exact ⟨u, hfirst ▸ hu, hbound⟩

/-! ### Fragments that code generation comes to -/

/-- Code generation comes to every fragment of the list, each in the block with its number. -/
theorem Emits.visits_frag {fs : List FragBB} {i : Nat} {c C : Context}
    (h : Emits (.frags fs i) c C) {j : Nat} {f : FragBB} (hf : fs[j]? = some f) :
    ∃ d d' fs', f.bb = .stm (i + j) [] ∧ fragStart (i + j) f d = .ok ((), d') ∧
      Visits (.frags fs i, c) (.frags (f :: fs') (i + j), d) := by
  induction fs generalizing i j c with
  | nil => simp at hf
  | cons g fs ih =>
      cases h with
      | frag hbb hstart hbody hrest =>
          cases j with
          | zero =>
              obtain rfl : g = f := by simpa using hf
              exact ⟨_, _, fs, hbb, hstart, .refl⟩
          | succ j =>
              obtain ⟨d, d', fs', hbb', hstart', hv⟩ := ih hrest (by simpa using hf)
              rw [Nat.add_right_comm] at hbb' hstart' hv
              exact ⟨d, d', fs', hbb', hstart', .head (.laterFrag hbb hstart hbody) hv⟩

end SmlnjCfg.Codegen
