import SmlnjCfg.Codegen.Unit

/-!
# `SmlnjCfg.Codegen.Caches`: what the code of a module refers to

The context makes the alias of a label, the function of an intrinsic and `@llvm.read_register`
once for each module, at their first use, and keeps pointers to them. `endModule` deletes the
module, and the pointers with all they lead to are gone. So the context must not use a pointer
from an earlier module: the code would refer to memory that was freed.

`beginModule` resets the caches one by one, 24 intrinsics among them, and the list has to be
complete. `mem_resetIntrinsics` shows that it is, and then `Memo.begin_eq` that a module starts
with empty caches, whatever was in them. From there the property is one of runs. `Memo.Closed`
says that the caches hold what the current module has, and that the code uses nothing else. A
lookup keeps it, and nothing but a lookup changes the caches.

* `Memo.begin_eq`: the caches at the start of a module.
* `Memo.Closed`, `Memo.Closed.get`: the invariant, and one lookup.
* `codegenCompUnit_closed`: the caches at the end of a module.
-/

set_option autoImplicit false

namespace SmlnjCfg.Codegen

open Cfg Gen

/-! ### The start of a module -/

/-- `beginModule` forgets no intrinsic: the list of its assignments has every member of the class.
A member that is added to one and not to the other would show here. -/
theorem mem_resetIntrinsics (f : CachedIntrinsic) : f ∈ resetIntrinsics := by
  cases f <;> decide

/-- Nothing of the caches is left over in a new module: the aliases are cleared, `_readReg` is
reset together with the metadata for its argument, and so is each intrinsic. -/
theorem Memo.begin_eq (m : Memo) : m.begin = ⟨fun _ => none, [], []⟩ := by
  have hcache : m.begin.cache = fun _ => none := by
    funext k
    cases k with
    | label lab => rfl
    | intrinsic f => exact if_pos (mem_resetIntrinsics f)
    | readReg => rfl
  show (⟨m.begin.cache, [], []⟩ : Memo) = _
  rw [hcache]

/-! ### Lookups -/

/-- The caches and the code lead to the current module only, and nothing was made twice. -/
structure Memo.Closed (m : Memo) : Prop where
  /-- A pointer in a cache leads into the current module. -/
  current : ∀ k i, m.cache k = some i → i = 0
  /-- What is cached was made, and what was made is cached. -/
  made_iff : ∀ k, k ∈ m.made ↔ (m.cache k).isSome = true
  nodup : m.made.Nodup
  used : ∀ p ∈ m.used, p.2 = 0 ∧ p.1 ∈ m.made

/-- A new module is closed: there is nothing in it. -/
theorem Memo.Closed.begin (m : Memo) : m.begin.Closed := by
  rw [m.begin_eq]
  exact ⟨nofun, fun k => by simp, .nil, nofun⟩

/-- A lookup keeps a module closed. What it finds is in the module, and what it does not find it
makes there. Nothing is made twice, since what is made is cached at once. -/
theorem Memo.Closed.get {m : Memo} (h : m.Closed) (k : MemoKey) : (m.get k).Closed := by
  have hused : ∀ {made : List MemoKey} {i : Nat}, (∀ k' ∈ m.made, k' ∈ made) → i = 0 →
      k ∈ made → ∀ p ∈ m.used ++ [(k, i)], p.2 = 0 ∧ p.1 ∈ made := by
    intro made i hsub hi hk p hp
    rcases List.mem_append.mp hp with hp | hp
    · exact ⟨(h.used p hp).1, hsub _ (h.used p hp).2⟩
    · rw [List.mem_singleton.mp hp]
      exact ⟨hi, hk⟩
  unfold Memo.get
  cases hk : m.cache k with
  | some i =>
      have hmade : k ∈ m.made := (h.made_iff k).mpr (by rw [hk]; rfl)
      exact ⟨h.current, h.made_iff, h.nodup, hused (fun _ hk' => hk') (h.current k i hk) hmade⟩
  | none =>
      have hnew : k ∉ m.made := fun hmade => by
        have hsome := (h.made_iff k).mp hmade
        rw [hk] at hsome
        cases hsome
      refine ⟨fun k' i hk' => ?_, fun k' => ?_, ?_,
        hused (fun _ => List.mem_append_left _) rfl (by simp)⟩
      · dsimp only at hk'
        split at hk'
        · exact (Option.some.inj hk').symm
        · exact h.current k' i hk'
      · show k' ∈ m.made ++ [k] ↔ (if k' = k then some 0 else m.cache k').isSome = true
        by_cases heq : k' = k
        · simp [heq]
        · simp [heq, h.made_iff k']
      · show (m.made ++ [k]).Nodup
        refine List.nodup_append.mpr ⟨h.nodup, List.nodup_singleton k, ?_⟩
        rintro a ha b hb rfl
        exact hnew (List.mem_singleton.mp hb ▸ ha)

/-! ### Code generation -/

/-- The step keeps a closed module closed. This is a reflexive and transitive relation, so it
holds of all that is generated once it holds of single steps. -/
def KeepsClosed (c c' : Context) : Prop := c.memo.Closed → c'.memo.Closed

/-- The caches are the same. -/
theorem KeepsClosed.of_eq {c c' : Context} (h : c'.memo = c.memo) : KeepsClosed c c' :=
  fun hc => h ▸ hc

/-- One step after the other. -/
theorem KeepsClosed.trans {c c₁ c' : Context} (h : KeepsClosed c c₁) (h' : KeepsClosed c₁ c') :
    KeepsClosed c c' := fun hc => h' (h hc)

/-- Only instructions that call an intrinsic and uses of an alias look into the caches. -/
theorem Step.keepsClosed {R : Rights} {c c' : Context} (h : Step R c c') : KeepsClosed c c' := by
  cases h with
  | emit o =>
      intro hc
      show ((MemoKey.ofOp o).map c.memo.get |>.getD c.memo).Closed
      cases MemoKey.ofOp o with
      | none => exact hc
      | some k => exact hc.get k
  | use key => exact fun hc => hc.get key
  | _ => exact .of_eq rfl

/-- All straight-line code is made of steps. -/
theorem KeepsClosed.of_run {α : Type} {x : Gen α} {c c' : Context} {a : α}
    (h : x.run c = .ok (a, c')) : KeepsClosed c c' := by
  have hsteps : Steps .all c c' := Gen.steps_of_run (fun _ _ _ => trivial) h
  exact hsteps.preorder (fun _ => .of_eq rfl) KeepsClosed.trans Step.keepsClosed

/-- The overflow block fetches an address from the stack, for which it reads the stack pointer.
This is a use of `@llvm.read_register`, and the first one makes the declaration. -/
theorem KeepsClosed.overflowBranch {obit res v : Val} {c c' : Context}
    (h : overflowBranch obit res c = .ok (v, c')) : KeepsClosed c c' := by
  obtain ⟨-, bb, c₁, ics, h₁, rfl, -⟩ := overflowBranch_ok h
  rcases theOverflowBB_ok h₁ with ⟨-, rfl⟩ | ⟨-, hnew⟩
  · exact .of_eq rfl
  · obtain ⟨-, fn, d, hrun, rfl⟩ := newOverflowBB_run hnew
    have hd := KeepsClosed.of_run hrun
    exact fun hc => hd hc

/-- All that is generated for a statement, its arms or fragments. -/
theorem Emits.keepsClosed {code : Code} {c c' : Context} (h : Emits code c c') :
    KeepsClosed c c' :=
  h.preorder (fun _ => .of_eq rfl) KeepsClosed.trans Step.keepsClosed KeepsClosed.overflowBranch
    (fun _ _ _ _ _ => .of_eq rfl) fun _ _ => .of_eq rfl

/-! ### Modules -/

/-- The code of a cluster. Its initialization makes blocks and phi nodes, which use no cache. -/
theorem codegenCluster_keepsClosed {cf : ClusterFn} {c C : Context}
    (h : codegenCluster cf c = .ok ((), C)) : KeepsClosed c C := by
  obtain ⟨fs, d, hgen⟩ := clusterGen_of_codegen h
  -- initialization makes blocks and phi nodes, and looks nothing up
  have hinit : KeepsClosed c d := .of_eq (by rw [hgen.inits.frame]; rfl)
  exact hinit.trans hgen.emits.keepsClosed

/-- The code of all clusters, by induction on their list. -/
theorem codegenClusters_keepsClosed {cfs : List ClusterFn} {fns : List (LVar × Body)}
    {c c' : Context} (h : codegenClusters cfs c = .ok (fns, c')) : KeepsClosed c c' := by
  induction cfs generalizing fns c with
  | nil =>
      obtain ⟨-, rfl⟩ := CodegenM.pure_ok.mp h
      exact .of_eq rfl
  | cons cf cfs ih =>
      obtain ⟨⟨⟩, c₁, h₁, h₂⟩ := CodegenM.bind_ok.mp h
      obtain ⟨c₂, c₃, h₃, h₄⟩ := CodegenM.bind_ok.mp h₂
      cases h₃
      obtain ⟨fns', c₄, h₅, h₆⟩ := CodegenM.bind_ok.mp h₄
      obtain ⟨-, rfl⟩ := CodegenM.pure_ok.mp h₆
      exact (codegenCluster_keepsClosed h₁).trans (ih h₅)

/-- Making the functions of the clusters uses no cache either: the alias of a function is made
when a label is used first. -/
theorem initClusters_keepsClosed {cls : List (Cluster .cpp)} {cfs : List ClusterFn}
    {c c' : Context} (h : initClusters cls c = .ok (cfs, c')) : KeepsClosed c c' := by
  induction cls generalizing cfs c with
  | nil =>
      obtain ⟨-, rfl⟩ := CodegenM.pure_ok.mp h
      exact .of_eq rfl
  | cons cl cls ih =>
      obtain ⟨cf, c₁, h₁, h₂⟩ := CodegenM.bind_ok.mp h
      obtain ⟨cfs', c₂, h₃, h₄⟩ := CodegenM.bind_ok.mp h₂
      obtain ⟨-, rfl⟩ := CodegenM.pure_ok.mp h₄
      obtain ⟨f, d₁, h₅, h₆⟩ := CodegenM.bind_ok.mp h₁
      obtain ⟨⟨⟩, d₂, h₇, h₈⟩ := CodegenM.bind_ok.mp h₆
      obtain ⟨fnTy, d₃, h₉, h₁₀⟩ := CodegenM.bind_ok.mp h₈
      have hentry := KeepsClosed.of_run h₅
      have hty := KeepsClosed.of_run h₉
      have hrest := ih h₃
      cases h₇
      cases h₁₀
      exact fun hc => hrest (hty (hentry hc))

/-- At the end of a compilation unit the module is closed, whatever was in the caches before. -/
theorem codegenCompUnit_closed {unit : CompUnit .cpp} {fns : List (LVar × Body)} {c c' : Context}
    (h : codegenCompUnit unit c = .ok (fns, c')) : c'.memo.Closed := by
  obtain ⟨⟨⟩, c₁, h₁, h₂⟩ := CodegenM.bind_ok.mp h
  obtain ⟨cfs, c₂, h₃, h₄⟩ := CodegenM.bind_ok.mp h₂
  have hbegin : c₁.memo.Closed := by
    cases h₁
    exact .begin c.memo
  exact codegenClusters_keepsClosed h₄ (initClusters_keepsClosed h₃ hbegin)

end SmlnjCfg.Codegen
