import SmlnjCfg.Codegen.Jump

/-!
# `SmlnjCfg.Codegen.Blocks`: the blocks of a function

Blocks are made by the initialization of a cluster and by code generation, in this
order, and each is put at the end. So the first block of a function is the block of
the entry fragment, which is where LLVM starts to execute it.

* `CodegenM.AddsBlocks`: nothing comes before the blocks that exist.
* `ClusterRun.head_blocks`: the first block.
-/

set_option autoImplicit false

namespace SmlnjCfg.Codegen

open Cfg Gen

/-! ### Adding blocks -/

/-- `x` makes new blocks after the others: what was there is a prefix of what is there then. -/
def CodegenM.AddsBlocks {α : Type} (x : CodegenM α) : Prop :=
  ∀ c a c', x c = .ok (a, c') → c.body.blocks <+: c'.body.blocks

/-- Straight-line code makes no blocks, so the list is the same. -/
theorem blocks_of_run {α : Type} {g : Gen α} {c c' : Context} {a : α}
    (h : g.run c = .ok (a, c')) : c'.body.blocks = c.body.blocks := by
  obtain ⟨is, hext⟩ := ext_of_run h
  rw [hext.frame]

namespace CodegenM.AddsBlocks

variable {α β : Type}

/-- Prefixes compose. -/
theorem bind {x : CodegenM α} {f : α → CodegenM β} (hx : x.AddsBlocks)
    (hf : ∀ a, (f a).AddsBlocks) : (x >>= f).AddsBlocks := by
  intro c b c' h
  obtain ⟨a, c₁, hx', hf'⟩ := CodegenM.bind_ok.mp h
  exact (hx c a c₁ hx').trans (hf a c₁ b c' hf')

/-- A result makes no block. -/
theorem pure (a : α) : (Pure.pure a : CodegenM α).AddsBlocks := by
  intro c b c' h
  obtain ⟨-, rfl⟩ := CodegenM.pure_ok.mp h
  exact List.prefix_rfl

/-- Straight-line code as a part. -/
theorem lift (g : Gen α) : (liftM g : CodegenM α).AddsBlocks := by
  intro c a c' h
  rw [blocks_of_run h]

/-- A change of the context, which has to be looked at. -/
theorem modify {f : Context → Context} (hf : ∀ c, c.body.blocks <+: (f c).body.blocks) :
    (modify f : CodegenM Unit).AddsBlocks := by
  intro c a c' h
  cases h
  exact hf c

/-- Going to another block makes none. -/
theorem setInsertPoint (bb : BBId) : (setInsertPoint bb).AddsBlocks :=
  modify fun _ => List.prefix_rfl

/-- The start of a block makes it, and within a block there is nothing to make. -/
theorem initBB (bb : BBId) (blkEntry : Bool) : (initBB bb blkEntry).AddsBlocks := by
  unfold Codegen.initBB
  split
  · exact modify fun _ => List.prefix_append _ _
  · exact pure _

/-- Phi nodes are put into a block that is there. -/
theorem createPHIs (tys : List IR.Ty) : (createPHIs tys).AddsBlocks := by
  intro c ids c' h
  rw [createPHIs_ok] at h
  cases h
  exact List.prefix_rfl

/-- Making blocks is closed under what `stm::init` does. -/
theorem initRules : InitRules AddsBlocks := ⟨pure (), fun hx hy => hx.bind fun _ => hy, initBB⟩

/-- The initialization of a statement. -/
theorem init (frag : Nat) (s : Stm .cpp) (path : List Nat) (blkEntry : Bool) :
    (s.init frag path blkEntry).AddsBlocks :=
  initRules.init frag s path blkEntry

/-- The initialization of the arms of a `SWITCH`, each of which starts a block. -/
theorem initArms (frag : Nat) (ks : List (Stm .cpp)) (path : List Nat) (i : Nat) :
    (Stm.initArms frag ks path i).AddsBlocks :=
  initRules.initArms frag ks path i

/-- The rest of `frag::init` after its block: the phi nodes, the entry in the map of fragments,
and the blocks of the body. -/
theorem initFragRest (i : Nat) (frag : Frag .cpp) : (do
    let phiNodes ← initPhis (.stm i []) frag
    let fragBB := { frag := frag, bb := .stm i [], phiNodes := phiNodes }
    insertFrag frag.lab fragBB
    return fragBB : CodegenM FragBB).AddsBlocks := by
  refine bind ?_ fun phis => ?_
  · unfold Codegen.initPhis
    split
    · refine bind (lift _) fun tys => bind (setInsertPoint _) fun _ => bind ?_ fun _ => pure _
      exact createPHIs _
    · exact pure _
  · exact bind (modify fun _ => List.prefix_rfl) fun _ => pure _

/-- A fragment starts with its block. -/
theorem initFrag (i : Nat) (frag : Frag .cpp) : (initFrag i frag).AddsBlocks :=
  bind (init _ _ _ _) fun _ => initFragRest i frag

/-- The fragments of a cluster, by induction on their list. -/
theorem initFrags (frags : List (Frag .cpp)) (i : Nat) : (initFrags frags i).AddsBlocks := by
  induction frags generalizing i with
  | nil => exact pure _
  | cons f fs ih => exact bind (initFrag _ _) fun _ => bind (ih _) fun _ => pure _

end CodegenM.AddsBlocks

/-! ### Code generation -/

/-- Only the dead block of a `SWITCH` is a step that makes a block, and it is put at the end. -/
theorem Step.addsBlocks {R : Rights} {c c' : Context} (h : Step R c c') :
    c.body.blocks <+: c'.body.blocks := by
  cases h with
  | deadBlock => exact List.prefix_append _ _
  | _ => exact List.prefix_rfl

/-- An operation that may overflow makes a block for what follows, and the overflow block unless
it is there. Both are put at the end. -/
theorem overflowBranch_addsBlocks {obit res v : Val} {c c' : Context}
    (h : overflowBranch obit res c = .ok (v, c')) : c.body.blocks <+: c'.body.blocks := by
  obtain ⟨-, bb, c₁, ics, h₁, rfl, -⟩ := overflowBranch_ok h
  refine (List.prefix_append _ _).trans (?_ : c.body.blocks ++ [.new c.nextBB] <+: _)
  rcases theOverflowBB_ok h₁ with ⟨-, rfl⟩ | ⟨-, hnew⟩
  · exact List.prefix_rfl
  · obtain ⟨-, is, fn, -, hc₁⟩ := newOverflowBB_ok hnew
    rw [hc₁]
    exact List.prefix_append _ _

/-- Code generation makes blocks after those of the initialization, whatever it comes to. -/
theorem Emits.addsBlocks {code : Code} {c c' : Context} (h : Emits code c c') :
    c.body.blocks <+: c'.body.blocks :=
  h.preorder (P := fun c c' => c.body.blocks <+: c'.body.blocks) (fun _ => List.prefix_rfl)
    List.IsPrefix.trans Step.addsBlocks overflowBranch_addsBlocks
    (fun _ _ _ _ _ => List.prefix_rfl) fun _ _ => List.prefix_rfl

/-! ### The first block -/

/-- A statement that starts a block makes this block first, before those of its arms. -/
theorem blocks_init {frag : Nat} {s : Stm .cpp} {path : List Nat} {c c' : Context}
    (h : s.init frag path true c = .ok ((), c')) :
    c.body.blocks ++ [.stm frag path] <+: c'.body.blocks := by
  have hfirst : ∀ x : CodegenM Unit, x.AddsBlocks →
      (initBB (.stm frag path) true >>= fun _ => x) c = .ok ((), c') →
      c.body.blocks ++ [.stm frag path] <+: c'.body.blocks := by
    intro x hx h
    obtain ⟨⟨⟩, c₁, h₁, h₂⟩ := CodegenM.bind_ok.mp h
    cases h₁
    exact hx _ _ _ h₂
  have hlast : initBB (.stm frag path) true c = .ok ((), c') →
      c.body.blocks ++ [.stm frag path] <+: c'.body.blocks := by
    intro h
    cases h
    exact List.prefix_rfl
  cases s with
  | LET exp param k => exact hfirst _ (.init _ _ _ _) h
  | ALLOC oper args lhs k => exact hfirst _ (.init _ _ _ _) h
  | APPLY fn args tys => exact hlast h
  | THROW fn args tys => exact hlast h
  | GOTO lab args => exact hlast h
  | SWITCH arg cases => exact hfirst _ (.initArms _ _ _ _) h
  | BRANCH oper args prob trueK falseK =>
      exact hfirst _ (.bind (.init _ _ _ _) fun _ => .init _ _ _ _) h
  | ARITH oper args param k => exact hfirst _ (.init _ _ _ _) h
  | SETTER oper args k => exact hfirst _ (.init _ _ _ _) h
  | CALLGC roots newRoots k => exact hfirst _ (.init _ _ _ _) h
  | RCC reentrant linkage proto args results live k => exact hfirst _ (.init _ _ _ _) h

/-- The first block of a function is the block of the entry: the entry is the first fragment, and
the first thing that `frag::init` does is to make its block. LLVM executes this one first. -/
theorem codegenCluster_blocks {cf : ClusterFn} {f : Frag .cpp} {c C : Context}
    (h : codegenCluster cf c = .ok ((), C)) (hf : cf.cluster.frags.head? = some f) :
    C.body.blocks.head? = some (.stm 0 []) := by
  obtain ⟨⟨⟩, c₁, h₁, h₂⟩ := CodegenM.bind_ok.mp h
  cases h₁
  obtain ⟨fs, d, h₃, h₄⟩ := CodegenM.bind_ok.mp h₂
  have hemits := (emits_frags fs (initFrags_ok h₃).placed h₄).addsBlocks
  obtain ⟨f', frags, hfrags⟩ : ∃ f' frags, cf.cluster.frags = f' :: frags := by
    cases hcases : cf.cluster.frags with
    | nil => rw [hcases] at hf; cases hf
    | cons f' frags => exact ⟨f', frags, rfl⟩
  rw [hfrags] at h₃
  obtain ⟨fb, d₁, h₅, h₆⟩ := CodegenM.bind_ok.mp h₃
  obtain ⟨⟨⟩, d₂, h₇, h₈⟩ := CodegenM.bind_ok.mp h₅
  -- the entry is initialized first, and its block is the first one of it
  have hinit : [.stm 0 []] <+: d₂.body.blocks := blocks_init h₇
  have hphis := CodegenM.AddsBlocks.initFragRest 0 f' _ _ _ h₈
  have hfrags : d₁.body.blocks <+: d.body.blocks :=
    CodegenM.AddsBlocks.bind (.initFrags frags 1) (fun _ => .pure _) _ _ _ h₆
  obtain ⟨bs, hbs⟩ := ((hinit.trans hphis).trans hfrags).trans hemits
  rw [← hbs]
  rfl

end SmlnjCfg.Codegen
