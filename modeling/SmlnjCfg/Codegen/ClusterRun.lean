import SmlnjCfg.Codegen.Layout
import SmlnjCfg.Codegen.Ready

/-!
# `SmlnjCfg.Codegen.ClusterRun`: code generation for a whole cluster

`cluster::codegen` makes the blocks and the phi nodes of all fragments, and
then generates code for one fragment after the other.

* `InitsFrags`: what initialization leaves behind.
* `ClusterRun`: a successful run, with the point between its two parts.
* `ClusterRun.ready`: at that point all blocks are unused.
* `OverflowOk`: the overflow block, at every point of a run.
-/

set_option autoImplicit false

namespace SmlnjCfg.Codegen

open Cfg Gen

/-! ### Initialization -/

/-- `x` makes blocks and does nothing else: all other fields of the context are the same. -/
def CodegenM.OnlyBlocks {α : Type} (x : CodegenM α) : Prop :=
  ∀ c a c', x c = .ok (a, c') → c' = { c with body := { c.body with blocks := c'.body.blocks } }

namespace CodegenM.OnlyBlocks

variable {α β : Type}

/-- Two such computations in a row. -/
theorem bind {x : CodegenM α} {f : α → CodegenM β} (hx : x.OnlyBlocks)
    (hf : ∀ a, (f a).OnlyBlocks) : (x >>= f).OnlyBlocks := by
  intro c b c' h
  obtain ⟨a, c₁, hx', hf'⟩ := CodegenM.bind_ok.mp h
  have h₁ := hx c a c₁ hx'
  have h₂ := hf a c₁ b c' hf'
  rw [h₁] at h₂
  exact h₂

/-- No block. -/
theorem pure (a : α) : (Pure.pure a : CodegenM α).OnlyBlocks := by
  intro c b c' h
  obtain ⟨-, rfl⟩ := CodegenM.pure_ok.mp h
  rfl

/-- One block, or none within a block. -/
theorem initBB (bb : BBId) (blkEntry : Bool) : (initBB bb blkEntry).OnlyBlocks := by
  unfold Codegen.initBB
  split
  · intro c a c' h
    cases h
    rfl
  · exact pure _

end CodegenM.OnlyBlocks

/-- The initialization of a statement makes the blocks of its arms and its own, and nothing but
blocks. -/
theorem onlyBlocks_init (frag : Nat) (s : Stm .cpp) (path : List Nat) (blkEntry : Bool) :
    (s.init frag path blkEntry).OnlyBlocks :=
  InitRules.init ⟨.pure (), fun hx hy => hx.bind fun _ => hy, .initBB⟩ frag s path blkEntry

/-- What the initialization of fragments leaves behind: phi nodes in the blocks of internal
fragments. No code is generated yet, and the phi nodes have the numbers from those of the start
on. -/
structure InitsFrags (frags : List (Frag .cpp)) (i : Nat) (fs : List FragBB) (c c' : Context) :
    Prop where
  placed : Placed fs i
  frags : fs.map (·.frag) = frags
  frame : c' = { c with
    nextId := c'.nextId
    curBB := c'.curBB
    fragMap := c'.fragMap
    body := { c.body with blocks := c'.body.blocks, phis := c'.body.phis } }
  nextId_le : c.nextId ≤ c'.nextId
  phis : ∃ ps, c'.body.phis = c.body.phis ++ ps ∧
    ∀ p ∈ ps, (∃ j, p.1 = .stm j []) ∧ c.nextId ≤ p.2.1 ∧ p.2.1 < c'.nextId
  tys : ∀ f ∈ fs, f.frag.kind = .con .INTERNAL →
    f.phiNodes.map Prod.snd
      = paramTysOf (argInfo c.target (needsBasePtr c) .INTERNAL) ++ userTys f.frag
  nodes : ∀ f ∈ fs, ∀ p ∈ f.phiNodes, p.1 < c'.nextId
  fragMap : ∀ lab f, c'.fragMap lab = some f → c.fragMap lab = some f ∨ f ∈ fs

/-- `initPhis` makes phi nodes in the block of the fragment, if it is internal: one for each
register, the base pointer and the parameters. The block is current afterwards. -/
theorem initPhis_ok {bb : BBId} {frag : Frag .cpp} {phis : List (Nat × IR.Ty)} {c c' : Context}
    (h : initPhis bb frag c = .ok (phis, c')) :
    c' = { c with
      nextId := c'.nextId
      curBB := c'.curBB
      body := { c.body with phis := c'.body.phis } } ∧ c.nextId ≤ c'.nextId ∧
    (∃ ps, c'.body.phis = c.body.phis ++ ps ∧
      ∀ p ∈ ps, p.1 = bb ∧ c.nextId ≤ p.2.1 ∧ p.2.1 < c'.nextId) ∧
    (∀ p ∈ phis, p.1 < c'.nextId) ∧
    (frag.kind = .con .INTERNAL → phis.map Prod.snd
      = paramTysOf (argInfo c.target (needsBasePtr c) .INTERNAL) ++ userTys frag) := by
  by_cases hk : frag.kind = .con .INTERNAL
  · have htys := initPhis_tys hk h
    simp only [initPhis, if_pos hk] at h
    obtain ⟨tys, c₁, h₁, h₂⟩ := CodegenM.bind_ok.mp h
    rw [hk] at h₁
    cases h₁
    obtain ⟨⟨⟩, c₂, h₃, h₄⟩ := CodegenM.bind_ok.mp h₂
    cases h₃
    obtain ⟨ids, c₃, h₅, h₆⟩ := CodegenM.bind_ok.mp h₄
    rw [createPHIs_ok] at h₅
    cases h₅
    obtain ⟨rfl, rfl⟩ := CodegenM.pure_ok.mp h₆
    refine ⟨rfl, Nat.le_add_right _ _, ⟨_, rfl, fun p hp => ?_⟩, fun p hp => ?_, fun _ => ?_⟩
    · obtain ⟨q, hq, rfl⟩ := List.mem_map.mp hp
      have hid := (List.mem_range'_1.mp (List.of_mem_zip hq).1)
      exact ⟨rfl, hid⟩
    · exact (List.mem_range'_1.mp (List.of_mem_zip hp).1).2
    · obtain ⟨tys, htys, heq⟩ := htys
      rw [hk] at htys
      cases htys
      exact heq
  · simp only [initPhis, if_neg hk] at h
    obtain ⟨rfl, rfl⟩ := CodegenM.pure_ok.mp h
    exact ⟨rfl, Nat.le_refl _, ⟨[], by simp⟩, by simp, fun h => absurd h hk⟩

/-- One fragment: its blocks, its phi nodes, and its entry in the map. -/
theorem initFrag_ok {i : Nat} {frag : Frag .cpp} {f : FragBB} {c c' : Context}
    (h : initFrag i frag c = .ok (f, c')) : InitsFrags [frag] i [f] c c' := by
  obtain ⟨⟨⟩, c₁, h₁, h₂⟩ := CodegenM.bind_ok.mp h
  have hc₁ := onlyBlocks_init i frag.body [] true c () c₁ h₁
  obtain ⟨phis, c₂, h₃, h₄⟩ := CodegenM.bind_ok.mp h₂
  obtain ⟨hc₂, hle, ⟨ps, hps, hmem⟩, hnodes, htys⟩ := initPhis_ok h₃
  obtain ⟨⟨⟩, c₃, h₅, h₆⟩ := CodegenM.bind_ok.mp h₄
  cases h₅
  obtain ⟨rfl, rfl⟩ := CodegenM.pure_ok.mp h₆
  have hphis : c₁.body.phis = c.body.phis := by rw [hc₁]
  have hnext : c₁.nextId = c.nextId := by rw [hc₁]
  have hmap : c₂.fragMap = c.fragMap := by rw [hc₂, hc₁]
  -- The layout of phi nodes depends on the target and the cluster, which are the same throughout.
  have hinfo : argInfo c₁.target (needsBasePtr c₁) .INTERNAL
      = argInfo c.target (needsBasePtr c) .INTERNAL := by rw [hc₁]; rfl
  refine ⟨⟨rfl, trivial⟩, rfl, ?_, by rw [← hnext]; exact hle, ⟨ps, by rw [← hphis]; exact hps,
    fun p hp => ?_⟩, ?_, ?_, ?_⟩
  · rw [hc₁] at hc₂
    show ({ c₂ with fragMap := _ } : Context) = _
    rw [hc₂]
  · obtain ⟨hbb, hid⟩ := hmem p hp
    rw [← hnext]
    exact ⟨⟨i, hbb⟩, hid⟩
  · intro f hf hk
    rw [List.mem_singleton] at hf
    subst hf
    rw [htys hk, hinfo]
  · intro f hf
    rw [List.mem_singleton] at hf
    subst hf
    exact hnodes
  · intro lab f hf
    simp only at hf
    split at hf
    · exact .inr (List.mem_singleton.mpr (Option.some.inj hf).symm)
    · rw [hmap] at hf
      exact .inl hf

/-- `cluster::codegen` initializes the fragments, by induction on their list. The later fragments
do not change the phi nodes of the earlier ones. -/
theorem initFrags_ok {frags : List (Frag .cpp)} {i : Nat} {fs : List FragBB} {c c' : Context}
    (h : initFrags frags i c = .ok (fs, c')) : InitsFrags frags i fs c c' := by
  induction frags generalizing i fs c with
  | nil =>
      obtain ⟨rfl, rfl⟩ := CodegenM.pure_ok.mp h
      exact ⟨trivial, rfl, rfl, Nat.le_refl _, ⟨[], by simp⟩, by simp, by simp, fun _ _ h => .inl h⟩
  | cons frag frags ih =>
      obtain ⟨f, c₁, h₁, h₂⟩ := CodegenM.bind_ok.mp h
      obtain ⟨fs', c₂, h₃, h₄⟩ := CodegenM.bind_ok.mp h₂
      obtain ⟨rfl, rfl⟩ := CodegenM.pure_ok.mp h₄
      have hf := initFrag_ok h₁
      have hfs := ih h₃
      have hinfo : argInfo c₁.target (needsBasePtr c₁) .INTERNAL
          = argInfo c.target (needsBasePtr c) .INTERNAL := by rw [hf.frame]; rfl
      obtain ⟨ps, hps, hpmem⟩ := hf.phis
      obtain ⟨qs, hqs, hqmem⟩ := hfs.phis
      have hle := hf.nextId_le
      have hle' := hfs.nextId_le
      refine ⟨⟨hf.placed.1, hfs.placed⟩, by simpa [hfs.frags] using hf.frags, ?_, by omega,
        ⟨ps ++ qs, by rw [hqs, hps, List.append_assoc], ?_⟩, ?_, ?_, ?_⟩
      · have hframe := hfs.frame
        rw [hf.frame] at hframe
        exact hframe
      · intro p hp
        rcases List.mem_append.mp hp with hp | hp
        · obtain ⟨hbb, hlo, hhi⟩ := hpmem p hp
          exact ⟨hbb, hlo, by omega⟩
        · obtain ⟨hbb, hlo, hhi⟩ := hqmem p hp
          exact ⟨hbb, by omega, hhi⟩
      · intro g hg hk
        rcases List.mem_cons.mp hg with rfl | hg
        · exact hf.tys _ (List.mem_singleton_self _) hk
        · rw [hfs.tys g hg hk, hinfo]
      · intro g hg p hp
        rcases List.mem_cons.mp hg with rfl | hg
        · exact Nat.lt_of_lt_of_le (hf.nodes _ (List.mem_singleton_self _) p hp) hle'
        · exact hfs.nodes g hg p hp
      -- A label leads to a fragment of the list, or to what it led to before: the map keeps a
      -- binding.
      · intro lab g hg
        rcases hfs.fragMap lab g hg with hg | hg
        · rcases hf.fragMap lab g hg with hg | hg
          · exact .inl hg
          · exact .inr (List.mem_cons.mpr (.inl (List.mem_singleton.mp hg)))
        · exact .inr (List.mem_cons_of_mem _ hg)

/-! ### Runs -/

/-- The start of `cluster::codegen`, after `beginCluster`. The variables and registers are what
the cluster before left. -/
def clusterStart (cf : ClusterFn) (c : Context) : Context :=
  { c with
    body := ⟨[], [], [], []⟩
    nextId := 0
    nextBB := 0
    overflowBB := none
    overflowPhiNodes := []
    fragMap := fun _ => none
    curFn := some cf.fn
    curCluster := some cf.cluster }

/-- A successful run of `cluster::codegen` from `c` to `C`: the fragments `fs` are initialized at
`d`, and code is generated from there. All later results about a cluster are about such a run. -/
structure ClusterRun (cf : ClusterFn) (c C : Context) (fs : List FragBB) (d : Context) : Prop where
  inits : InitsFrags cf.cluster.frags 0 fs (clusterStart cf c) d
  emits : Emits (.frags fs 0) d C

/-- All blocks are unused when code generation starts, since the initialization generates no
code. -/
theorem ClusterRun.ready {cf : ClusterFn} {c C d : Context} {fs : List FragBB}
    (h : ClusterRun cf c C fs d) : Ready (.frags fs 0) d := by
  have hframe := h.inits.frame
  obtain ⟨ps, hps, hmem⟩ := h.inits.phis
  have hinsts : d.body.insts = [] := by rw [hframe]; rfl
  have hincoming : d.body.incoming = [] := by rw [hframe]; rfl
  refine ⟨fun b _ => ⟨by simp [hinsts], by simp [hincoming]⟩, fun p hp => ?_, nofun, nofun⟩
  · rw [hps] at hp
    rcases List.mem_append.mp hp with hp | hp
    · cases hp
    obtain ⟨⟨j, hbb⟩, -, hid⟩ := hmem p hp
    refine ⟨?_, hid⟩
    rw [hbb]
    exact nofun

/-! ### Finished blocks -/

namespace Grows

variable {R : BBId → Prop} {c c' : Context} {b : BBId}

/-- A block that no code is added to has the same code. -/
theorem block_eq (hg : Grows R c c') (hb : ¬ R b) : c'.body.block b = c.body.block b := by
  obtain ⟨is, heq, his⟩ := hg.insts
  have hnil : is.filterMap (fun p => if p.1 = b then some p.2 else none) = [] := by
    rw [List.filterMap_eq_nil_iff]
    intro p hp
    rw [if_neg]
    rintro rfl
    exact hb (his p hp).1
  rw [IR.Body.block, heq, List.filterMap_append, hnil, List.append_nil]
  rfl

/-- The code of a block stays at its front. -/
theorem block_grows (hg : Grows R c c') (b : BBId) : c.body.block b <+: c'.body.block b := by
  obtain ⟨is, heq, -⟩ := hg.insts
  exact ⟨_, by rw [IR.Body.block, IR.Body.block, heq, List.filterMap_append]⟩

/-- A block that exists gets no phi node: new ones go to new blocks. -/
theorem phisOf_eq (hg : Grows R c c') (hold : Old c b) : c'.body.phisOf b = c.body.phisOf b := by
  obtain ⟨ps, heq, hps⟩ := hg.phis
  have hnil : ps.filterMap (fun p => if p.1 = b then some p.2 else none) = [] := by
    rw [List.filterMap_eq_nil_iff]
    intro p hp
    obtain ⟨⟨m, hm, -, hb⟩, -⟩ := hps p hp
    rw [if_neg]
    rintro rfl
    exact absurd (hold m hb) (by omega)
  rw [IR.Body.phisOf, heq, List.filterMap_append, hnil, List.append_nil]
  rfl

/-- An edge to a phi node stays. A phi node has at most one value for each block, the first that
was given. -/
theorem incomingOf_eq (hg : Grows R c c') {phi : Nat} {v : Val}
    (h : c.body.incomingOf phi b = some v) : c'.body.incomingOf phi b = some v := by
  obtain ⟨ics, heq, -⟩ := hg.incoming
  rw [IR.Body.incomingOf, Option.map_eq_some_iff] at h ⊢
  obtain ⟨p, hp, rfl⟩ := h
  exact ⟨p, by rw [heq, List.find?_append, hp]; rfl, rfl⟩

end Grows

/-! ### The overflow block -/

/-- The block `bb` raises `Overflow`, with a phi node for every machine register. Its code is
complete from the moment when it is made: the operations, the call and the return. -/
structure OverflowAt (c : Context) (bb : BBId) : Prop where
  made : c.overflowBB = some bb
  isNew : ∃ m, m < c.nextBB ∧ bb = .new m
  length : c.overflowPhiNodes.length = c.target.numMachineRegs
  nodup : c.overflowPhiNodes.Nodup
  phis : c.body.phisOf bb = c.overflowPhiNodes.map fun phi => (phi, ptrTy)
  block : ∃ (is : List (Nat × IR.Op Sym)) (fn : Val),
    c.body.block bb = is.map (fun p => .op p.1 p.2)
      ++ [.exitCall false fn (c.overflowPhiNodes.map fun phi => .inst phi ptrTy), .term .retVoid]

/-- Code elsewhere does not change the block. -/
theorem OverflowAt.of_grows {R : BBId → Prop} {c c' : Context} {bb : BBId} (h : OverflowAt c bb)
    (hg : Grows R c c') (hbb : ¬ R bb) : OverflowAt c' bb := by
  obtain ⟨hmade, hnodes⟩ := hg.overflow bb h.made
  obtain ⟨m, hm, hnew⟩ := h.isNew
  have hold : Old c bb := by
    rintro m' rfl
    cases hnew
    exact hm
  refine ⟨hmade, ⟨m, Nat.lt_of_lt_of_le hm hg.nextBB_le, hnew⟩, ?_, ?_, ?_, ?_⟩
  · rw [hnodes, hg.target, h.length]
  · rw [hnodes]
    exact h.nodup
  · rw [hg.phisOf_eq hold, hnodes, h.phis]
  · rw [hg.block_eq hbb, hnodes]
    exact h.block

/-- The overflow block, if there is one, is complete, and it is not the current block, so nothing
is added to it. -/
structure OverflowOk (code : Code) (c : Context) : Prop where
  made : ∀ bb, c.overflowBB = some bb → OverflowAt c bb
  cur : ∀ b, code.cur c = some b → c.overflowBB ≠ some b

/-- The overflow block when it is made. Its number is new, so no code and no phi nodes are
there. -/
theorem overflowAt_of_new {c c' : Context} {bb : BBId}
    (hunused : ∀ b, (∃ m, c.nextBB ≤ m ∧ b = .new m) → Unused c b)
    (hphis : ∀ p ∈ c.body.phis, Old c p.1) (h : newOverflowBB c = .ok (bb, c')) :
    OverflowAt c' bb := by
  obtain ⟨rfl, is, fn, -, hc'⟩ := newOverflowBB_ok h
  have hempty : c.body.block (.new c.nextBB) = [] := by
    rw [IR.Body.block, List.filterMap_eq_nil_iff]
    intro p hp
    rw [if_neg ((hunused _ ⟨c.nextBB, Nat.le_refl _, rfl⟩).insts p hp)]
  have hnophis : c.body.phisOf (.new c.nextBB) = [] := by
    rw [IR.Body.phisOf, List.filterMap_eq_nil_iff]
    intro p hp
    rw [if_neg]
    intro hb
    exact absurd (hphis p hp _ hb) (Nat.lt_irrefl _)
  rw [hc']
  refine ⟨rfl, ⟨c.nextBB, Nat.lt_succ_self _, rfl⟩, List.length_range' .., List.nodup_range' .., ?_,
    is, fn, ?_⟩
  · simp only [IR.Body.phisOf, List.filterMap_append, List.filterMap_map] at hnophis ⊢
    rw [hnophis]
    simp
  · simp only [IR.Body.block, instsAt, List.filterMap_append, List.filterMap_map] at hempty ⊢
    rw [hempty]
    simp

/-- The overflow block exists. -/
theorem OverflowAt.isOld {c : Context} {bb : BBId} (h : OverflowAt c bb) : Old c bb := by
  obtain ⟨m, hm, rfl⟩ := h.isNew
  rintro m' ⟨⟩
  exact hm

/-- A change of the insertion point, the variables and the registers. -/
theorem OverflowAt.of_eq {c c' : Context} {bb : BBId} (h : OverflowAt c bb)
    (vMap : LVar → Option Val) (b : BBId) (rs : CMRegState)
    (hc' : c' = { c with vMap := vMap, curBB := b, regState := rs }) : OverflowAt c' bb :=
  h.of_grows (R := fun _ => False) (.of_eq vMap b rs hc') id

/-- A head adds nothing to an overflow block that exists, and goes on in another block: the one
that it was in or a new one. -/
theorem OverflowAt.of_advances {c c' : Context} {bb : BBId} (h : OverflowAt c bb)
    (hcur : bb ≠ c.curBB) (hadv : Advances c c') : OverflowAt c' bb ∧ bb ≠ c'.curBB := by
  have hnew : ∀ m, c.nextBB ≤ m → bb ≠ .new m := fun m hm hb =>
    absurd (h.isOld m hb) (Nat.not_lt.mpr hm)
  refine ⟨h.of_grows hadv.grows ?_, ?_⟩
  · rintro (hb | ⟨m, hm, hb⟩)
    · exact hcur hb
    · exact hnew m hm hb
  · rcases hadv.curBB with hb | ⟨m, hm, hb⟩
    · rwa [hb]
    · rw [hb]
      exact hnew m hm

/-- The block that is current after an overflow test, and the overflow block, if the test is the
first one of the cluster. The two are made one after the other and have different numbers. -/
theorem overflowAt_of_branch {c c' : Context} {obit res v : Val}
    (hunused : ∀ b, (∃ m, c.nextBB ≤ m ∧ b = .new m) → Unused c b)
    (hphis : ∀ p ∈ c.body.phis, Old c p.1) (hold : Old c c.curBB) (hnone : c.overflowBB = none)
    (h : overflowBranch obit res c = .ok (v, c')) :
    ∃ bb, OverflowAt c' bb ∧ bb ≠ c'.curBB := by
  obtain ⟨-, bb, c₁, ics, hovflw, rfl, hics⟩ := overflowBranch_ok h
  rcases theOverflowBB_ok hovflw with ⟨hbb, -⟩ | ⟨-, hnew⟩
  · rw [hnone] at hbb
    cases hbb
  have hbb := (newOverflowBB_ok hnew).1
  have hcur : c₁.curBB = c.curBB := (theOverflowBB_grows hovflw).2.1
  have hat : OverflowAt c₁ bb := by
    refine overflowAt_of_new (fun b hb => ?_) (fun p hp m hm => ?_) hnew
    · obtain ⟨m, hm, rfl⟩ := hb
      have hm' : c.nextBB + 1 ≤ m := hm
      have hfresh := hunused _ ⟨m, by omega, rfl⟩
      exact ⟨hfresh.insts, hfresh.incoming⟩
    · exact Nat.lt_succ_of_lt (hphis p hp m hm)
  have hne : bb ≠ c.curBB := by
    rw [hbb]
    intro heq
    exact absurd (hold _ heq.symm) (by simp only [Nat.not_lt]; exact Nat.le_succ _)
  refine ⟨bb, ⟨hat.made, hat.isNew, hat.length, hat.nodup, hat.phis, ?_⟩, ?_⟩
  · obtain ⟨is, fn, hblock⟩ := hat.block
    refine ⟨is, fn, ?_⟩
    rw [← hblock]
    simp [IR.Body.block, hcur, hne.symm]
  · rw [hbb]
    intro heq
    injection heq with heq
    exact absurd heq (Nat.succ_ne_self c.nextBB)

/-- A head keeps the overflow block, or makes it. Only a test for overflow makes it, and the test
is the last thing but one that such a head does. -/
theorem OverflowOk.head {frag : Nat} {s : Stm .cpp} {path : List Nat} {c c₁ : Context}
    (hr : Ready (.stm frag s path) c) (ho : OverflowOk (.stm frag s path) c)
    (h : s.head frag path c = .ok ((), c₁)) :
    ∀ bb, c₁.overflowBB = some bb → OverflowAt c₁ bb ∧ bb ≠ c₁.curBB := by
  intro bb hbb
  have hadv := Stm.head_advances h (hr.old _ rfl)
  cases hmade : c.overflowBB with
  | some bb' =>
      obtain rfl : bb' = bb :=
        Option.some.inj ((hadv.grows.overflow bb' hmade).1.symm.trans hbb)
      exact (ho.made _ hmade).of_advances (fun he => ho.cur _ rfl (he ▸ hmade)) hadv
  | none =>
      rcases Stm.head_cases (hr.old _ rfl) h with ⟨hstay, -⟩ | ⟨c₂, c₃, obit, res, hstay, hadv', hbr, lv, hbind⟩
      · rw [hstay.overflowBB, hmade] at hbb
        cases hbb
      · cases hbind
        have hunused : ∀ b, (∃ m, c₂.nextBB ≤ m ∧ b = .new m) → Unused c₂ b := by
          intro b hb
          exact hr.unused_of_head hadv' (.inr hb)
        have hphis : ∀ p ∈ c₂.body.phis, Old c₂ p.1 := fun p hp =>
          (hadv'.grows.phis_old hr.phis p hp).1
        obtain ⟨bb', hat, hne⟩ := overflowAt_of_branch hunused hphis hadv'.old
          (hstay.overflowBB.trans hmade) hbr
        obtain rfl : bb' = bb := Option.some.inj (hat.made.symm.trans hbb)
        exact ⟨hat.of_eq _ c₃.curBB c₃.regState rfl, hne⟩

/-- The statement that follows in the same path starts where the head ended. -/
theorem OverflowOk.next {frag : Nat} {s k : Stm .cpp} {path : List Nat} {c c₁ : Context}
    (hr : Ready (.stm frag s path) c) (ho : OverflowOk (.stm frag s path) c)
    (h : s.head frag path c = .ok ((), c₁)) : OverflowOk (.stm frag k path) c₁ where
  made bb hbb := (ho.head hr h bb hbb).1
  cur := by
    rintro b ⟨⟩ hbb
    exact (ho.head hr h _ hbb).2 rfl

/-- The arms of a branch or a switch start in blocks of their own. -/
theorem OverflowOk.arms {frag : Nat} {s : Stm .cpp} {saved : CMRegState} {ks : List (Stm .cpp)}
    {path : List Nat} {i : Nat} {c c₁ : Context} (hr : Ready (.stm frag s path) c)
    (ho : OverflowOk (.stm frag s path) c) (h : s.head frag path c = .ok ((), c₁)) :
    OverflowOk (.arms frag saved ks path i) c₁ :=
  ⟨fun bb hbb => (ho.head hr h bb hbb).1, nofun⟩

/-- One arm: the insertion point goes to its block and the registers are restored, and neither is
about the overflow block. -/
theorem OverflowOk.arm {frag : Nat} {saved : CMRegState} {k : Stm .cpp} {ks : List (Stm .cpp)}
    {path : List Nat} {i : Nat} {c : Context} (ho : OverflowOk (.arms frag saved ks path i) c) :
    OverflowOk (.stm frag k (i :: path)) (armStart frag saved path i c) where
  made bb hbb := (ho.made bb hbb).of_eq _ _ _ rfl
  cur := by
    rintro b ⟨⟩ hbb
    obtain ⟨m, -, hm⟩ := (ho.made _ hbb).isNew
    cases hm

/-- The start of a fragment generates code in its block only. -/
theorem OverflowOk.frag {f : FragBB} {fs : List FragBB} {i : Nat} {c c₁ : Context}
    (ho : OverflowOk (.frags fs i) c) (hbb : f.bb = .stm i [])
    (hstart : fragStart i f c = .ok ((), c₁)) : OverflowOk (.stm i f.frag.body []) c₁ := by
  obtain ⟨hadv, hstay⟩ := fragStart_ok hbb hstart
  have hboth : ∀ bb, c₁.overflowBB = some bb → OverflowAt c₁ bb ∧ bb ≠ c₁.curBB := by
    intro bb hmade
    have hat : OverflowAt (c.atFrag (.stm i [])) bb := by
      have hc : c.overflowBB = some bb := hstay.overflowBB.symm.trans hmade
      exact (ho.made bb hc).of_eq _ _ c.regState rfl
    refine hat.of_advances ?_ hadv
    obtain ⟨m, -, rfl⟩ := hat.isNew
    exact nofun
  exact ⟨fun bb hmade => (hboth bb hmade).1, by rintro b ⟨⟩ hmade; exact (hboth _ hmade).2 rfl⟩

/-- The overflow block at the end of what is generated for `code`, by induction on what is
generated. -/
theorem Emits.overflowOk {code : Code} {c c' : Context} (he : Emits code c c') :
    Ready code c → OverflowOk code c → ∀ bb, c'.overflowBB = some bb → OverflowAt c' bb := by
  induction he with
  | stop hk h => exact fun hr ho bb hbb => (ho.head hr h bb hbb).1
  | next hk h _ ih => exact fun hr ho => ih (hr.next hk h) (ho.next hr h)
  | arms hk h _ ih => exact fun hr ho => ih (hr.arms h) (ho.arms hr h)
  | noArm => exact fun _ ho => ho.made
  | arm harm _ iharm ihrest =>
      exact fun hr ho => ihrest (hr.laterArm harm) ⟨iharm hr.arm ho.arm, nofun⟩
  | noFrag => exact fun _ ho => ho.made
  | frag hbb hstart hbody _ ihbody ihrest =>
      exact fun hr ho => ihrest (hr.laterFrag hbb hstart hbody)
        ⟨ihbody (hr.frag hbb hstart) (ho.frag hbb hstart), nofun⟩

/-- One step down: from a statement to the next one or to its arms, and so on. The cases are those
of `Calls`. -/
theorem Calls.overflowOk {code code' : Code} {c c' : Context} (h : Calls (code, c) (code', c'))
    (hr : Ready code c) (ho : OverflowOk code c) : OverflowOk code' c' := by
  cases h with
  | next hk h => exact ho.next hr h
  | arms hk h => exact ho.arms hr h
  | arm => exact ho.arm
  | laterArm harm => exact ⟨harm.overflowOk hr.arm ho.arm, nofun⟩
  | frag hbb hstart => exact ho.frag hbb hstart
  | laterFrag hbb hstart hbody =>
      exact ⟨hbody.overflowOk (hr.frag hbb hstart) (ho.frag hbb hstart), nofun⟩

/-- The overflow block is as it should be wherever code generation comes to. -/
theorem Visits.overflowOk {p q : Code × Context} (h : Visits p q) (hr : Ready p.1 p.2)
    (ho : OverflowOk p.1 p.2) : OverflowOk q.1 q.2 :=
  (h.invariant (I := fun code c => Ready code c ∧ OverflowOk code c)
    (fun _ _ _ _ hcall hI => ⟨hcall.ready hI.1, hcall.overflowOk hI.1 hI.2⟩) ⟨hr, ho⟩).2

/-- Once made, the overflow block stays the same until the end of the run. So what is known of it
when a statement refers to it is known of the finished function. -/
theorem Visits.overflowAt {p q : Code × Context} (h : Visits p q) {C : Context} {bb : BBId}
    (hr : Ready p.1 p.2) (ho : OverflowOk p.1 p.2) (he : Emits p.1 p.2 C)
    (hbb : q.2.overflowBB = some bb) : OverflowAt C bb := by
  have hq := h.overflowOk hr ho
  have hat := hq.made bb hbb
  refine hat.of_grows (h.grows hr he) ?_
  rintro (hcur | hunused)
  · exact hq.cur bb hcur hbb
  · obtain ⟨is, fn, hblock⟩ := hat.block
    have hnil : q.2.body.block bb = [] := by
      rw [IR.Body.block, List.filterMap_eq_nil_iff]
      intro p hp
      rw [if_neg (hunused.insts p hp)]
    rw [hnil] at hblock
    simp at hblock

/-- There is no overflow block when code generation starts. -/
theorem ClusterRun.overflowOk {cf : ClusterFn} {c C d : Context} {fs : List FragBB}
    (h : ClusterRun cf c C fs d) : OverflowOk (.frags fs 0) d := by
  have hnone : d.overflowBB = none := by
    rw [h.inits.frame]
    rfl
  exact ⟨fun bb hbb => (by rw [hnone] at hbb; cases hbb), nofun⟩

/-! ### Functions of one fragment -/

/-- The context after a computation that succeeds. It is for functions that are given explicitly,
where the context is too large to be written down. -/
def CodegenM.after {α : Type} (x : CodegenM α) (c : Context) : Context :=
  match x c with
  | .ok (_, c') => c'
  | .error _ => c

/-- If a computation succeeds, that is the context after it. -/
theorem CodegenM.after_ok {α : Type} {x : CodegenM α} {c : Context}
    (h : (x c).isOk = true) : ∃ a, x c = .ok (a, x.after c) := by
  unfold CodegenM.after
  cases hx : x c with
  | error e =>
      rw [hx] at h
      cases h
  | ok p => exact ⟨p.1, rfl⟩

/-- A cluster of one fragment, as the function it becomes on a target with these registers. -/
def oneFrag (t : TargetInfo) (f : Frag .cpp) : ClusterFn where
  cluster := ⟨⟨0, false, false, false⟩, [f]⟩
  fn := ⟨f.lab, List.replicate t.numMachineRegs ptrTy ++ userTys f⟩

/-- The only fragment. -/
def entryBB (f : Frag .cpp) : FragBB := ⟨f, .stm 0 [], []⟩

/-- The context when the only fragment has been initialized. -/
def initCtx (t : TargetInfo) (f : Frag .cpp) : Context :=
  CodegenM.after (initFrags [f] 0) (clusterStart (oneFrag t f) (Context.create t))

/-- The context at the body of the only fragment. -/
def bodyCtx (t : TargetInfo) (f : Frag .cpp) : Context :=
  CodegenM.after (fragStart 0 (entryBB f)) (initCtx t f)

/-- The context at the end. -/
def endCtx (t : TargetInfo) (f : Frag .cpp) : Context :=
  CodegenM.after (codegenFrags [entryBB f] 0) (initCtx t f)

/-- Code generation for the only fragment succeeds. This is a test that can be computed. -/
def oneFragOk (t : TargetInfo) (f : Frag .cpp) : Bool :=
  (initFrags [f] 0 (clusterStart (oneFrag t f) (Context.create t))).isOk &&
    (fragStart 0 (entryBB f) (initCtx t f)).isOk &&
    (codegenFrags [entryBB f] 0 (initCtx t f)).isOk

/-- The initialization makes one block, without phi nodes. -/
theorem initFrags_oneFrag {t : TargetInfo} {f : Frag .cpp} (hk : f.kind ≠ .con .INTERNAL)
    (h : oneFragOk t f = true) :
    initFrags [f] 0 (clusterStart (oneFrag t f) (Context.create t))
      = .ok ([entryBB f], initCtx t f) := by
  simp only [oneFragOk, Bool.and_eq_true] at h
  obtain ⟨fs, hinit⟩ := CodegenM.after_ok h.1.1
  have hfs : fs = [entryBB f] := by
    obtain ⟨fb, c₁, h₁, h₂⟩ := CodegenM.bind_ok.mp hinit
    obtain ⟨fs', c₂, h₃, h₄⟩ := CodegenM.bind_ok.mp h₂
    obtain ⟨rfl, -⟩ := CodegenM.pure_ok.mp h₃
    obtain ⟨rfl, -⟩ := CodegenM.pure_ok.mp h₄
    obtain ⟨⟨⟩, c₃, -, h₅⟩ := CodegenM.bind_ok.mp h₁
    obtain ⟨phis, c₄, h₆, h₇⟩ := CodegenM.bind_ok.mp h₅
    rw [initPhis, if_neg hk] at h₆
    obtain ⟨rfl, -⟩ := CodegenM.pure_ok.mp h₆
    obtain ⟨⟨⟩, c₅, -, h₈⟩ := CodegenM.bind_ok.mp h₇
    obtain ⟨rfl, -⟩ := CodegenM.pure_ok.mp h₈
    rfl
  rw [hfs] at hinit
  exact hinit

/-- Such a cluster has a run. -/
theorem clusterRun_oneFrag {t : TargetInfo} {f : Frag .cpp} (hk : f.kind ≠ .con .INTERNAL)
    (h : oneFragOk t f = true) :
    ClusterRun (oneFrag t f) (Context.create t) (endCtx t f) [entryBB f] (initCtx t f) := by
  have hinit := initFrags_oneFrag hk h
  simp only [oneFragOk, Bool.and_eq_true] at h
  obtain ⟨⟨⟩, hcode⟩ := CodegenM.after_ok h.2
  exact ⟨initFrags_ok hinit, emits_frags _ ⟨rfl, trivial⟩ hcode⟩

/-- The run comes to the body of the fragment. -/
theorem visits_oneFrag {t : TargetInfo} {f : Frag .cpp} (h : oneFragOk t f = true) :
    Visits (.frags [entryBB f] 0, initCtx t f) (.stm 0 f.body [], bodyCtx t f) := by
  simp only [oneFragOk, Bool.and_eq_true] at h
  obtain ⟨⟨⟩, hstart⟩ := CodegenM.after_ok h.1.2
  exact .single (.frag rfl hstart)

end SmlnjCfg.Codegen
