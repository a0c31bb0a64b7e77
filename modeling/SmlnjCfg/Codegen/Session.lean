import SmlnjCfg.Codegen.Caches
import SmlnjCfg.Lib.TwoRuns

/-!
# `SmlnjCfg.Codegen.Session`: several compilation units in one context

A context is made once and then used for one compilation unit after the other. `beginModule`
resets the caches of aliases and intrinsics and the map of the clusters, and `beginCluster` and
`beginFrag` reset the fragments, the overflow block and the variables. The insertion point and
the register state are what the unit before, or the cluster before, left there. The model is of
the build with assertions, where `setupStdEntry` clears a base pointer that is not needed. The
source does not compile this for `NDEBUG`.

None of that matters: a module is the one that a new context would give. The proof runs the code
in two contexts that differ in what is left over, and shows where the difference ends. Blocks and
phi nodes are made at a point that is set before, and the start of an entry sets every register
and the base pointer, or clears it.

* `Loose`, `UpToRegs`: contexts that differ in what is left over.
* `same_setupStdEntry`: the start of an entry fragment makes them equal.
* `same_codegenCluster`, `same_codegenCompUnit`: the same code, or the same failure.
* `codegenCompUnit_session`: any number of compilation units.
-/

set_option autoImplicit false

namespace SmlnjCfg.Codegen

open Cfg Gen TwoRuns

/-! ### What is left over -/

/-- The contexts agree apart from the insertion point, the variables and the registers. Whatever
is generated next sets these before it looks at them. -/
def Loose (c c' : Context) : Prop :=
  ∃ bb vMap rs, c' = { c with curBB := bb, vMap := vMap, regState := rs }

/-- The contexts agree apart from registers that are not in `rs`, and the base pointer. This is
the state of things within the start of an entry, with the registers that are set so far in
`rs`. -/
def UpToRegs (rs : List CMRegId) (c c' : Context) : Prop :=
  ∃ st, c' = { c with regState := st } ∧ ∀ r ∈ rs, st.val r = c.regState.val r

/-- The contexts know the same functions, and have the same in their caches. They may differ in
anything that belongs to a cluster. -/
structure SameLinks (c c' : Context) : Prop where
  target : c'.target = c.target
  clusterMap : c'.clusterMap = c.clusterMap
  memo : c'.memo = c.memo

/-- The contexts have the same target, which is all that a context is made with. -/
def SameTarget (c c' : Context) : Prop := c'.target = c.target

/-- What argument conventions depend on: the target, and the attributes of the cluster. -/
def SameConv (c c' : Context) : Prop := c'.target = c.target ∧ c'.curCluster = c.curCluster

/-- A context agrees with itself. -/
theorem Loose.refl (c : Context) : Loose c c := ⟨_, _, _, rfl⟩

/-- The insertion point, variables and registers do not matter to the conventions. -/
theorem Loose.conv {c c' : Context} (h : Loose c c') : SameConv c c' := by
  obtain ⟨bb, vMap, rs, rfl⟩ := h
  exact ⟨rfl, rfl⟩

/-- The values of registers do not matter to them either. -/
theorem UpToRegs.conv {rs : List CMRegId} {c c' : Context} (h : UpToRegs rs c c') :
    SameConv c c' := by
  obtain ⟨st, rfl, -⟩ := h
  exact ⟨rfl, rfl⟩

/-! ### Conventions -/

section

variable {R : Context → Context → Prop}

/-- The layout of arguments is the same in two contexts with the same conventions, whatever else
they differ in. -/
theorem same_getArgInfo (hR : ∀ c c', R c c' → SameConv c c') (kind : Tagged FragKind) :
    Same R R (liftM (getArgInfo kind) : CodegenM ArgInfo) (liftM (getArgInfo kind)) := by
  intro c c' h
  obtain ⟨htarget, hcluster⟩ := hR c c' h
  show Alike R ((getArgInfo kind).run c) ((getArgInfo kind).run c')
  cases kind with
  | con kind =>
      rw [run_getArgInfo, run_getArgInfo, needsBasePtr, needsBasePtr, htarget, hcluster]
      exact .ok h
  | undeclared n => exact .error

/-- The types of the parameters are the same. -/
theorem same_createParamTys (hR : ∀ c c', R c c' → SameConv c c') (kind : Tagged FragKind) :
    Same R R (liftM (createParamTys kind) : CodegenM (List IR.Ty))
      (liftM (createParamTys kind)) := by
  rw [createParamTys, lift_bind]
  exact (same_getArgInfo hR kind).bind fun info => .pure _

/-- The type of a function is the same too. -/
theorem same_createFnTy (hR : ∀ c c', R c c' → SameConv c c') (kind : Tagged FragKind)
    (tys : List IR.Ty) : Same R R (liftM (createFnTy kind tys) : CodegenM (List IR.Ty))
      (liftM (createFnTy kind tys)) := by
  rw [createFnTy, lift_bind]
  exact (same_createParamTys hR kind).bind fun info => .pure _

end

/-! ### Initialization -/

/-- Making a block leaves the difference as it is: the insertion point is moved to the block in
both contexts, or in none. -/
theorem same_initBB (bb : BBId) (blkEntry : Bool) :
    Same Loose Loose (initBB bb blkEntry) (initBB bb blkEntry) := by
  unfold initBB
  split
  · refine .modify fun c c' h => ?_
    obtain ⟨bb', vMap, rs, rfl⟩ := h
    exact ⟨_, _, _, rfl⟩
  · exact .pure _

/-- The initialization of a statement makes the same blocks in both. -/
theorem same_init (frag : Nat) (s : Stm .cpp) (path : List Nat) (blkEntry : Bool) :
    Same Loose Loose (s.init frag path blkEntry) (s.init frag path blkEntry) :=
  InitRules.init (P := fun x => Same Loose Loose x x)
    ⟨.pure (), fun hx hy => hx.bind fun _ => hy, same_initBB⟩ frag s path blkEntry

/-- Phi nodes go to the block of the fragment, whatever was generated last: the insertion point is
set before, so here it is the same in both contexts. -/
theorem same_createPHIs (tys : List IR.Ty) : Same (fun c c' => Loose c c' ∧ c'.curBB = c.curBB)
    (fun c c' => Loose c c' ∧ c'.curBB = c.curBB) (createPHIs tys) (createPHIs tys) := by
  induction tys with
  | nil => exact .pure _
  | cons ty tys ih =>
      refine .bind ?_ fun phi => .bind ih fun phis => .pure _
      intro c c' h
      obtain ⟨⟨bb, vMap, rs, rfl⟩, rfl⟩ := h
      exact .ok ⟨⟨_, _, _, rfl⟩, rfl⟩

/-- The phi nodes of an internal fragment, with the insertion point set to its block first. -/
theorem same_initPhis (bb : BBId) (frag : Frag .cpp) :
    Same Loose Loose (initPhis bb frag) (initPhis bb frag) := by
  unfold initPhis
  split
  · refine .bind (same_createParamTys (fun _ _ => Loose.conv) _) fun tys => ?_
    refine .bind (S := fun c c' => Loose c c' ∧ c'.curBB = c.curBB) (.modify ?_) fun _ => ?_
    · rintro c _ ⟨bb', vMap, rs, rfl⟩
      exact ⟨⟨_, _, _, rfl⟩, rfl⟩
    · exact .bind (same_createPHIs _) fun phis => (Same.pure _).mono (fun _ _ h => h.1) fun _ _ h => h
  · exact .pure _

/-- The fragments of a cluster, one after the other. -/
theorem same_initFrags (frags : List (Frag .cpp)) (i : Nat) :
    Same Loose Loose (initFrags frags i) (initFrags frags i) := by
  induction frags generalizing i with
  | nil => exact .pure _
  | cons f frags ih =>
      refine .bind ?_ fun fb => .bind (ih _) fun fbs => .pure _
      refine .bind (same_init _ _ _ _) fun _ => .bind (same_initPhis _ _) fun phis => ?_
      refine .bind (.modify ?_) fun _ => .pure _
      rintro c _ ⟨bb, vMap, rs, rfl⟩
      exact ⟨_, _, _, rfl⟩

/-! ### The entry of a cluster -/

/-- An argument is taken from the current function, which both contexts have. -/
theorem same_getArg (rs : List CMRegId) (i : Nat) : Same (UpToRegs rs) (UpToRegs rs)
    (liftM (getArg i) : CodegenM Val) (liftM (getArg i)) := by
  rintro c _ ⟨st, rfl, hst⟩
  show Alike _ ((getArg i).run c) ((getArg i).run { c with regState := st })
  cases hfn : c.curFn with
  | none => simp only [getArg, ask, deref, bind_def, Gen.bind, run, hfn]; exact .error
  | some fn =>
      cases hty : fn.fnTy[i]? with
      | none => simp only [getArg, ask, deref, bind_def, Gen.bind, run, hfn, hty]; exact .error
      | some ty =>
          simp only [getArg, ask, deref, bind_def, Gen.bind, run, hfn, hty, pure_def]
          exact .ok ⟨st, by simp only [hfn], hst⟩

/-- A register that gets a value has it in both contexts, and is one of those that agree from then
on. -/
theorem UpToRegs.set {rs : List CMRegId} {c c' : Context} (h : UpToRegs rs c c') (r : CMRegId)
    (v : Option Val) : UpToRegs (r :: rs) { c with regState := c.regState.set r v }
      { c' with regState := c'.regState.set r v } := by
  obtain ⟨st, rfl, hst⟩ := h
  refine ⟨st.set r v, rfl, fun r' hr' => ?_⟩
  by_cases heq : r' = r
  · subst heq
    simp [CMRegState.set]
  · rw [CMRegState.set_val_of_ne _ _ heq, CMRegState.set_val_of_ne _ _ heq]
    exact hst r' ((List.mem_cons.mp hr').resolve_left heq)

/-- After the registers of a list are set, the contexts agree on them as well. -/
theorem same_setupRegs (regs rs : List CMRegId) (hwIx : Nat) :
    Same (UpToRegs rs) (UpToRegs (regs.reverse ++ rs)) (setupRegs regs hwIx)
      (setupRegs regs hwIx) := by
  induction regs generalizing rs hwIx with
  | nil => exact .pure _
  | cons r regs ih =>
      rw [List.reverse_cons, List.append_assoc]
      refine .get fun c c' h => ?_
      rw [h.conv.1]
      split
      · exact .bind (same_getArg _ _) fun arg =>
          .bind (.modify fun _ _ h => h.set r _) fun _ => ih _ _
      · exact .bind (.modify fun _ _ h => h.set r _) fun _ => ih _ _

/-- An instruction does not read the register state, and takes the same number in both
contexts. -/
theorem emitOp_upToRegs {rs : List CMRegId} {c c' : Context} (h : UpToRegs rs c c')
    (o : IR.Op Sym) : UpToRegs rs (c.emitOp o) (c'.emitOp o) := by
  obtain ⟨st, rfl, hst⟩ := h
  exact ⟨st, rfl, hst⟩

/-- A cast gives the same value in both, since the value that is cast is the same. -/
theorem same_createPtrToInt (rs : List CMRegId) (v : Val) : Same (UpToRegs rs) (UpToRegs rs)
    (liftM (createPtrToInt v) : CodegenM Val) (liftM (createPtrToInt v)) := by
  intro c c' h
  show Alike _ ((createPtrToInt v).run c) ((createPtrToInt v).run c')
  unfold createPtrToInt createCast
  split
  · exact .ok h
  · have hid : c'.nextId = c.nextId := by
      obtain ⟨st, rfl, -⟩ := h
      rfl
    simp only [inst, run, hid]
    exact .ok (emitOp_upToRegs h _)

/-- Once all registers and the base pointer have values, nothing is left over: the contexts are
equal. -/
theorem same_setBasePtr (v : Option Val) :
    Same (UpToRegs CMRegId.all) Eq (setBasePtr v) (setBasePtr v) := by
  refine .modify fun c c' h => ?_
  obtain ⟨st, rfl, hst⟩ := h
  have hval : st.val = c.regState.val := funext fun r => hst r r.mem_all
  simp only [hval]

/-- The base pointer is read from an argument, or it is cleared. The source clears it in the build
with assertions only; in another build the one of an earlier cluster would be left there. -/
theorem same_setupBasePtr (frag : Frag .cpp) :
    Same (UpToRegs CMRegId.all) Eq (setupBasePtr frag) (setupBasePtr frag) := by
  refine .get fun c c' h => ?_
  obtain ⟨htarget, hcluster⟩ := h.conv
  have hneeds : needsBasePtr c' = needsBasePtr c := by rw [needsBasePtr, needsBasePtr, hcluster]
  rw [htarget, hneeds]
  split
  · exact .bind (same_getArg _ _) fun arg => .bind (same_createPtrToInt _ _) fun v =>
      same_setBasePtr _
  · exact same_setBasePtr _

/-- The code of an entry starts with a context that depends on the cluster only. Every register is
set here, the ones on the stack to no value, and then the base pointer. -/
theorem same_setupStdEntry (frag : Frag .cpp) :
    Same (UpToRegs []) Eq (setupStdEntry frag) (setupStdEntry frag) := by
  refine .bind (same_getArgInfo (fun _ _ => UpToRegs.conv) _) fun info => ?_
  refine .bind (same_setupRegs CMRegId.all [] 0) fun _ => ?_
  refine .bind ((same_setupBasePtr frag).mono (fun c c' h => ?_) fun _ _ h => h) fun _ => .refl _
  obtain ⟨st, hc', hst⟩ := h
  exact ⟨st, hc', fun r hr => hst r (List.mem_append_left _ (List.mem_reverse.mpr hr))⟩

/-! ### Clusters -/

/-- The fragments of a cluster. The first one is the entry, after whose start the contexts are
equal, and from there the two runs are the same run. -/
theorem same_codegenFrags (fs : List FragBB) :
    Same Loose Loose (codegenFrags fs 0) (codegenFrags fs 0) := by
  cases fs with
  | nil => exact .pure _
  | cons f fs =>
      refine .bind (S := Eq) ?_ fun _ => (Same.refl _).mono (fun _ _ h => h) fun c c' h => ?_
      · refine .bind (S := UpToRegs []) (.modify fun c c' h => ?_) fun _ => ?_
        · obtain ⟨bb, vMap, rs, rfl⟩ := h
          exact ⟨rs, rfl, nofun⟩
        · exact .bind (same_setupStdEntry _) fun _ => .refl _
      · exact h ▸ .refl c

/-- The code of a cluster depends on the functions of the module only. `beginCluster` resets what
belongs to the cluster before. -/
theorem same_codegenCluster (cf : ClusterFn) :
    Same SameLinks Loose (codegenCluster cf) (codegenCluster cf) := by
  refine .bind (.modify fun c c' h => ?_) fun _ => .bind (same_initFrags _ _) fun fs =>
    same_codegenFrags fs
  refine ⟨c'.curBB, c'.vMap, c'.regState, ?_⟩
  rw [h.target, h.clusterMap, h.memo]

/-- The insertion point, variables and registers are no links. -/
theorem Loose.links {c c' : Context} (h : Loose c c') : SameLinks c c' := by
  obtain ⟨bb, vMap, rs, rfl⟩ := h
  exact ⟨rfl, rfl, rfl⟩

/-- The clusters of a module, one after the other. What each leaves over is lost in the next. -/
theorem same_codegenClusters (cfs : List ClusterFn) :
    Same SameLinks SameLinks (codegenClusters cfs) (codegenClusters cfs) := by
  induction cfs with
  | nil => exact .pure _
  | cons cf cfs ih =>
      refine .bind (same_codegenCluster cf) fun _ => .get fun c c' h => ?_
      have hbody : c'.body = c.body := by
        obtain ⟨bb, vMap, rs, rfl⟩ := h
        rfl
      rw [hbody]
      exact .bind (ih.mono (fun _ _ => Loose.links) fun _ _ h => h) fun fns => .pure _

/-! ### Compilation units -/

/-- The entry fragment is looked up in the cluster and not in the context. -/
theorem same_entry (cl : Cluster .cpp) : Same SameLinks SameLinks
    (liftM (entry cl) : CodegenM (Frag .cpp)) (liftM (entry cl)) := by
  intro c c' h
  show Alike _ ((entry cl).run c) ((entry cl).run c')
  unfold entry deref
  split
  · exact .ok h
  · exact .error

/-- The function of a cluster has a type and a name that depend on the cluster and the target. -/
theorem same_initCluster (cl : Cluster .cpp) :
    Same SameLinks SameLinks (initCluster cl) (initCluster cl) := by
  refine .bind (same_entry cl) fun f => ?_
  refine .bind (S := fun c c' => SameLinks c c' ∧ c'.curCluster = c.curCluster)
    (.modify fun c c' h => ⟨⟨h.target, h.clusterMap, h.memo⟩, rfl⟩) fun _ => ?_
  refine .bind (same_createFnTy (fun c c' h => ⟨h.1.target, h.2⟩) _ _) fun fnTy => ?_
  refine .bind (S := SameLinks) (.modify fun c c' h => ⟨h.1.target, ?_, h.1.memo⟩) fun _ => .pure _
  simp only [h.1.clusterMap]

/-- The functions of all clusters are made, and are known, before any code is generated. -/
theorem same_initClusters (cls : List (Cluster .cpp)) :
    Same SameLinks SameLinks (initClusters cls) (initClusters cls) := by
  induction cls with
  | nil => exact .pure _
  | cons cl cls ih => exact .bind (same_initCluster cl) fun cf => .bind ih fun cfs => .pure _

/-- In two contexts for one target, a compilation unit gives the same module or fails alike: after
`beginModule` the two know no functions and have nothing in their caches. -/
theorem same_codegenCompUnit (unit : CompUnit .cpp) :
    Same SameTarget SameLinks (codegenCompUnit unit) (codegenCompUnit unit) :=
  .bind (.modify fun c c' h => ⟨h, rfl, (c'.memo.begin_eq).trans c.memo.begin_eq.symm⟩) fun _ =>
    .bind (same_initClusters _) fun cfs => same_codegenClusters cfs

/-- The target stays that of the context for good. -/
theorem codegenCompUnit_target {unit : CompUnit .cpp} {fns : List (LVar × Body)} {c c' : Context}
    (h : codegenCompUnit unit c = .ok (fns, c')) : c'.target = c.target := by
  have hclusters : ∀ {cfs : List ClusterFn} {fns : List (LVar × Body)} {c c' : Context},
      codegenClusters cfs c = .ok (fns, c') → c'.target = c.target := by
    intro cfs
    induction cfs with
    | nil =>
        intro fns c c' h
        obtain ⟨-, rfl⟩ := CodegenM.pure_ok.mp h
        rfl
    | cons cf cfs ih =>
        intro fns c c' h
        obtain ⟨⟨⟩, c₁, h₁, h₂⟩ := CodegenM.bind_ok.mp h
        obtain ⟨c₂, c₃, h₃, h₄⟩ := CodegenM.bind_ok.mp h₂
        cases h₃
        obtain ⟨fns', c₄, h₅, h₆⟩ := CodegenM.bind_ok.mp h₄
        obtain ⟨rfl, rfl⟩ := CodegenM.pure_ok.mp h₆
        exact (ih h₅).trans (codegenCluster_keeps h₁).1
  obtain ⟨⟨⟩, c₁, h₁, h₂⟩ := CodegenM.bind_ok.mp h
  cases h₁
  obtain ⟨cfs, c₂, h₃, h₄⟩ := CodegenM.bind_ok.mp h₂
  exact (hclusters h₄).trans (initClusters_ok h₃).target

/-- What is generated for a compilation unit: the functions, the aliases and intrinsics that
the context made for the module, and what the code refers to of these, with the age of the module
that it is in. -/
structure Module where
  fns : List (LVar × Body)
  made : List MemoKey
  used : List (MemoKey × Nat)

/-- The module of a compilation unit. -/
def genModule (unit : CompUnit .cpp) : CodegenM Module := do
  let fns ← codegenCompUnit unit
  let memo := (← get).memo
  return ⟨fns, memo.made, memo.used⟩

/-- The module consists of the functions that are generated and of what is in the caches then. -/
theorem genModule_ok {unit : CompUnit .cpp} {mod : Module} {c c' : Context} :
    genModule unit c = .ok (mod, c') ↔
      codegenCompUnit unit c = .ok (mod.fns, c') ∧ mod = ⟨mod.fns, c'.memo.made, c'.memo.used⟩ := by
  unfold genModule
  rw [CodegenM.bind_ok]
  constructor
  · rintro ⟨fns, c₁, h₁, h₂⟩
    cases h₂
    exact ⟨h₁, rfl⟩
  · rintro ⟨h, hmod⟩
    rw [hmod]
    exact ⟨mod.fns, c', h, rfl⟩

/-- The caches are a part of the links, so they are the same as well. -/
theorem same_genModule (unit : CompUnit .cpp) :
    Same SameTarget SameLinks (genModule unit) (genModule unit) := by
  refine .bind (same_codegenCompUnit unit) fun fns => .get fun c c' h => ?_
  rw [h.memo]
  exact .pure _

/-- The code of the module refers to aliases and intrinsics of the module itself, and each of
these was made once. -/
structure Module.Closed (mod : Module) : Prop where
  nodup : mod.made.Nodup
  used : ∀ p ∈ mod.used, p.2 = 0 ∧ p.1 ∈ mod.made

/-- No module has a reference to what was made for another one, since `beginModule` empties the
caches and a look into a cache makes what is missing. -/
theorem genModule_closed {unit : CompUnit .cpp} {mod : Module} {c c' : Context}
    (h : genModule unit c = .ok (mod, c')) : mod.Closed := by
  obtain ⟨hunit, hmod⟩ := genModule_ok.mp h
  have hclosed := codegenCompUnit_closed hunit
  rw [hmod]
  exact ⟨hclosed.nodup, hclosed.used⟩

/-- However many compilation units come before it in a context, each gives the module that it
gives in a new context, and each fails there if it fails in a new one. All modules are closed:
none refers to an alias or an intrinsic of a module that is gone. -/
theorem codegenCompUnit_session (units : List (CompUnit .cpp)) (c : Context)
    (mods : List Module) :
    (∃ C, units.mapM genModule c = .ok (mods, C)) ↔
      List.Forall₂ (fun unit mod => mod.Closed ∧ ∃ C, genModule unit (Context.create c.target)
        = .ok (mod, C)) units mods := by
  induction units generalizing c mods with
  | nil =>
      rw [List.forall₂_nil_left_iff]
      refine ⟨fun ⟨C, h⟩ => (CodegenM.pure_ok.mp h).1, ?_⟩
      rintro rfl
      exact ⟨c, rfl⟩
  | cons unit units ih =>
      have htarget : ∀ {c : Context} {mod : Module} {c₁ : Context},
          genModule unit c = .ok (mod, c₁) → c₁.target = c.target :=
        fun h => codegenCompUnit_target (genModule_ok.mp h).1
      rw [List.mapM_cons]
      constructor
      · rintro ⟨C, h⟩
        obtain ⟨mod, c₁, h₁, h₂⟩ := CodegenM.bind_ok.mp h
        obtain ⟨mods', c₂, h₃, h₄⟩ := CodegenM.bind_ok.mp h₂
        obtain ⟨rfl, rfl⟩ := CodegenM.pure_ok.mp h₄
        obtain ⟨C₁, hC₁, -⟩ := (same_genModule unit c (Context.create c.target) rfl).exists_ok h₁
        refine .cons ⟨genModule_closed h₁, C₁, hC₁⟩ ?_
        rw [← htarget h₁]
        exact (ih c₁ mods').mp ⟨_, h₃⟩
      · rintro (_ | ⟨⟨-, C₁, h₁⟩, hrest⟩)
        obtain ⟨c₁, hc₁, -⟩ := (same_genModule unit (Context.create c.target) c rfl).exists_ok h₁
        rw [← htarget hc₁] at hrest
        obtain ⟨C, hC⟩ := (ih c₁ _).mpr hrest
        exact ⟨C, CodegenM.bind_ok.mpr ⟨_, c₁, hc₁, CodegenM.bind_ok.mpr ⟨_, C, hC, rfl⟩⟩⟩

end SmlnjCfg.Codegen
