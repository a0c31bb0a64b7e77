import SmlnjCfg.Cfg.Heap
import SmlnjCfg.Codegen.Simulate

/-!
# `SmlnjCfg.Codegen.Heap`: what the code of a cluster does to the heap

Paths of the machine are followed by the code, so what is known of the heap along a
path holds of the code. A path may branch and jump as it likes, but has no collection.

* `codegenCluster_limit`: a test for the heap limit covers what is allocated after it.
* `codegenCluster_storeList`: the store list.
* `codegenCluster_frame`: objects are disjoint, and everything else stays the same.
* `codegenCluster_field`: a record keeps its fields, but a `SELECT` may not read them.
-/

set_option autoImplicit false

namespace SmlnjCfg.Codegen

open Cfg Gen IR

variable {act : Activation Sym} {M : Machine} {ρ ρ' : Env} {σ₀ σ σ' : MState} {cf : ClusterFn}
  {c C : Context} {f : Frag .cpp} {vs : List MLVal} {s : State} {stm k : Stm .cpp}
  {ps : List Point}

/-- The function of a cluster is called as the machine is. -/
structure Called (act : Activation Sym) (M : Machine) (cf : ClusterFn) (c C : Context)
    (f : Frag .cpp) (vs : List MLVal) (σ₀ : MState) (s : State) : Prop where
  code : codegenCluster cf c = .ok ((), C)
  linked : Linked act M c
  frags : M.frags = cf.cluster.frags
  unique : ∀ f ∈ cf.cluster.frags, f.UniqueBinds
  enters : Enters act M cf f vs σ₀ s

/-- The function goes from `q` to `q'` as the machine goes from `a` to `a'`. -/
structure Follow (act : Activation Sym) (M : Machine) (C : Context) (start : IR.Config BBId Sym)
    (a a' : Cfg.Config) (q q' : IR.Config BBId Sym) : Prop where
  first : Reaches act C.body start q
  second : Reaches act C.body q q'
  agrees : ∃ fs d₀, Matches act M C d₀ fs a q ∧ Matches act M C d₀ fs a' q'

/-- The code follows a path. -/
theorem Called.follow (h : Called act M cf c C f vs σ₀ s)
    (hrun : Runs M (.run f.body (f.env vs) σ₀) (.run stm ρ σ))
    (hpath : Path M ps (.run stm ρ σ) (.run k ρ' σ')) : ∃ q q',
    Follow act M C (startConfig C.body s) (.run stm ρ σ) (.run k ρ' σ') q q' ∧
      q.st.mem = σ.mem ∧ q.st.trace = σ.trace ∧ q'.st.mem = σ'.mem ∧ q'.st.trace = σ'.trace := by
  obtain ⟨fs, d₀, hc⟩ := exists_compiled h.code h.linked h.frags h.unique h.enters
  obtain ⟨q, hreach, hm⟩ := hc.simulates.star hrun (hc.start h.enters)
  obtain ⟨q', hreach', hm'⟩ := hc.simulates.star hpath.runs hm
  exact ⟨q, q', ⟨hreach, hreach', fs, d₀, hm, hm'⟩, hm.agrees.1, hm.agrees.2, hm'.agrees.1,
    hm'.agrees.2⟩

/-! ### A box -/

/-- A cluster that puts two values in a record, and assigns the record. -/
def boxUp : Cluster .cpp where
  attrs := ⟨0, false, false, false⟩
  frags := [
    { kind := .con .STD_FUN, lab := 1, params := [⟨10, .PTRt⟩, ⟨11, .PTRt⟩],
      body := .BRANCH (.LIMIT 64) [] 0 (.THROW (.VAR 10) [.VAR 11] [.PTRt])
        (.ALLOC (.RECORD ⟨false, [1]⟩ false) [.VAR 11, .VAR 10] 12
          (.SETTER .ASSIGN [.VAR 11, .VAR 12]
            (.THROW (.VAR 10) [.LOOKER .DEREF [.VAR 12]] [.PTRt]))) }]

/-- The cluster with its function. -/
def boxUpFn : ClusterFn := ⟨boxUp, ⟨1, List.replicate 7 ptrTy⟩⟩

/-- The context after code generation for it. -/
def boxUpEnd : Context := CodegenM.after (codegenCluster boxUpFn) (Context.create arm64Info)

/-- A heap that is not full. -/
def boxState : MState where
  reg
    | .ALLOC_PTR => 4096
    | .LIMIT_PTR => 65536
    | .STORE_PTR => 512
    | _ => 0
  mem _ := 0
  trace := []

/-- A call with the continuation `7` and the reference `1024`. -/
def boxArgs : Activation Sym where
  host := (countDownArgs 0).host
  args := [some 4096, some 65536, some 512, some 0, some 0, some 7, some 1024]

/-- The machine that it runs on. -/
abbrev boxMachine : Machine := aloneMachine arm64Info boxUp

/-- The variables at the start. -/
def boxEnv : Env := boxUp.frags[0].env [.ml 7, .ml 1024]

theorem enters_boxUp : Enters boxArgs boxMachine boxUpFn boxUp.frags[0] [.ml 7, .ml 1024] boxState
    ⟨fun _ => [], boxState.mem, []⟩ where
  head := rfl
  accepts := rfl
  call := ⟨.STD_FUN, [], rfl, by decide, rfl, rfl, rfl⟩
  mem := rfl
  trace := rfl

theorem codegenCluster_boxUp :
    codegenCluster boxUpFn (Context.create arm64Info) = .ok ((), boxUpEnd) := by
  obtain ⟨⟨⟩, h⟩ := CodegenM.after_ok (x := codegenCluster boxUpFn)
    (c := Context.create arm64Info) (by decide +kernel)
  exact h

theorem called_boxUp : Called boxArgs boxMachine boxUpFn (Context.create arm64Info) boxUpEnd
    boxUp.frags[0] [.ml 7, .ml 1024] boxState ⟨fun _ => [], boxState.mem, []⟩ where
  code := codegenCluster_boxUp
  linked := ⟨rfl, rfl, rfl, rfl, rfl, nofun⟩
  frags := rfl
  unique := by decide
  enters := enters_boxUp

theorem heapRegs_boxUp : boxMachine.HeapRegs := ⟨rfl, rfl, rfl⟩

/-! ### The heap limit -/

section

/-- When the code of a `LIMIT` test for `amt` bytes finds that they are there, then
whatever path it takes, allocations and cells of the store list of at most `amt` bytes
stay below the limit and the slop, and so does the allocation pointer. -/
theorem codegenCluster_limit (h : Called act M cf c C f vs σ₀ s) (hregs : M.HeapRegs) {amt : Nat} {args : List (Exp .cpp)}
    {prob : Int} {trueK falseK : Stm .cpp}
    (hrun : Runs M (.run f.body (f.env vs) σ₀)
      (.run (.BRANCH (.LIMIT amt) args prob trueK falseK) ρ σ))
    (htest : (CfgPrim.Branch.LIMIT amt : CfgPrim.Branch .cpp).eval M σ [] = some false)
    (hwrap : (σ.reg .ALLOC_PTR).toNat + amt < 2 ^ 64)
    (hpath : Path M ps (.run (.BRANCH (.LIMIT amt) args prob trueK falseK) ρ σ) (.run k ρ' σ'))
    (hmut : ∀ p ∈ ps, p.stm.isMutator = true) (hbudget : heapSize ps ≤ amt) :
    ∃ q q' ws, Follow act M C (startConfig C.body s)
        (.run (.BRANCH (.LIMIT amt) args prob trueK falseK) ρ σ) (.run k ρ' σ') q q' ∧
      q'.st.trace = q.st.trace ++ ws ∧
      (σ'.reg .ALLOC_PTR).toNat ≤ (σ.reg .LIMIT_PTR).toNat + M.target.allocSlopSzb ∧
      ∀ w ∈ ws, w.adr + w.size ≤ (σ.reg .LIMIT_PTR).toNat + M.target.allocSlopSzb ∨
        ∃ p ∈ ps, (p.storeAdr M).map (·.toNat) = some w.adr ∧ w.size = 8 := by
  obtain ⟨q, q', hfollow, -, htrace, -, htrace'⟩ := h.follow hrun hpath
  obtain ⟨es, hes⟩ := hpath.effects hregs hmut (by omega)
  have hlimit := le_of_limit hregs htest hwrap
  obtain ⟨-, htop⟩ := hes.top_le
  refine ⟨q, q', es.flatMap (·.writes), hfollow, by rw [htrace, htrace', hes.trace], by omega,
    fun w hw => ?_⟩
  obtain ⟨e, he, hw⟩ := List.mem_flatMap.mp hw
  rcases List.mem_append.mp hw with hw | hw
  · have := hes.inside e he w hw
    exact .inl (by omega)
  · obtain ⟨hsize, p, hp, hadr⟩ := hes.outs e he w hw
    exact .inr ⟨p, hp, hadr, hsize⟩

end

/-- The record and the cell of the store list are below the limit. -/
theorem codegenCluster_limit_boxUp : ∃ ps k ρ' σ',
    Path boxMachine ps (.run boxUp.frags[0].body boxEnv boxState) (.run k ρ' σ') ∧
    ps.length = 3 ∧ ∃ q q' ws, Follow boxArgs boxMachine boxUpEnd
        (startConfig boxUpEnd.body ⟨fun _ => [], boxState.mem, []⟩)
        (.run boxUp.frags[0].body boxEnv boxState) (.run k ρ' σ') q q' ∧
      q'.st.trace = q.st.trace ++ ws ∧ (σ'.reg .ALLOC_PTR).toNat ≤ 65536 + 8192 ∧
      ∀ w ∈ ws, w.adr + w.size ≤ 65536 + 8192 ∨
        ∃ p ∈ ps, (p.storeAdr boxMachine).map (·.toNat) = some w.adr ∧ w.size = 8 := by
  refine ⟨_, _, _, _, .cons rfl (.cons rfl (.cons rfl .nil)), rfl, ?_⟩
  exact codegenCluster_limit called_boxUp heapRegs_boxUp .refl rfl (by decide) (.cons rfl (.cons rfl (.cons rfl .nil)))
    (List.forall_mem_cons.mpr ⟨rfl, List.forall_mem_cons.mpr ⟨rfl,
      List.forall_mem_cons.mpr ⟨rfl, nofun⟩⟩⟩) (by decide)

/-! ### The store list -/

section

/-- Along a path, the store list grows by the addresses of all boxed updates and
assignments, the last one first, and by nothing else, as long as no statement stores to
one of these cells. -/
theorem codegenCluster_storeList (h : Called act M cf c C f vs σ₀ s) (hregs : M.HeapRegs)
    (hrun : Runs M (.run f.body (f.env vs) σ₀) (.run stm ρ σ))
    (hpath : Path M ps (.run stm ρ σ) (.run k ρ' σ'))
    (hmut : ∀ p ∈ ps, p.stm.isMutator = true)
    (hwrap : (σ.reg .ALLOC_PTR).toNat + heapSize ps < 2 ^ 64)
    (hspare : ∀ p ∈ ps, ∀ cell ∈ ps, cell.stm.isBoxed = true → p.Spares M cell.top 16) :
    ∃ q q', Follow act M C (startConfig C.body s) (.run stm ρ σ) (.run k ρ' σ') q q' ∧
      Links q'.st.mem (σ'.reg .STORE_PTR) (ps.filterMap (·.noted M)).reverse
        (σ.reg .STORE_PTR) := by
  obtain ⟨q, q', hfollow, -, -, hmem, -⟩ := h.follow hrun hpath
  obtain ⟨es, hes⟩ := hpath.effects hregs hmut hwrap
  exact ⟨q, q', hfollow, hmem ▸ hes.links hspare⟩

end

/-- The assignment is noted. -/
theorem codegenCluster_storeList_boxUp : ∃ (k : Stm .cpp) (ρ' : Env) (σ' : MState) (q q' : _),
    σ'.reg .STORE_PTR = 4120 ∧
    Follow boxArgs boxMachine boxUpEnd (startConfig boxUpEnd.body ⟨fun _ => [], boxState.mem, []⟩)
      (.run boxUp.frags[0].body boxEnv boxState) (.run k ρ' σ') q q' ∧
    Links q'.st.mem 4120 [1024] 512 := by
  obtain ⟨q, q', hfollow, hlinks⟩ := codegenCluster_storeList called_boxUp heapRegs_boxUp .refl
    (.cons rfl (.cons rfl (.cons rfl .nil)))
    (List.forall_mem_cons.mpr ⟨rfl, List.forall_mem_cons.mpr ⟨rfl,
      List.forall_mem_cons.mpr ⟨rfl, nofun⟩⟩⟩) (by decide)
    (List.forall_mem_cons.mpr ⟨fun _ _ _ => nofun, List.forall_mem_cons.mpr ⟨fun _ _ _ => nofun,
      List.forall_mem_cons.mpr ⟨List.forall_mem_cons.mpr ⟨nofun, List.forall_mem_cons.mpr ⟨nofun,
        List.forall_mem_cons.mpr ⟨fun _ w hw => Option.some.inj hw ▸ .inr (by decide), nofun⟩⟩⟩,
        nofun⟩⟩⟩)
  exact ⟨_, _, _, q, q', rfl, hfollow, hlinks⟩

/-! ### Objects -/

section

/-- Along a path, memory is written between the allocation pointers and at the addresses
that statements store to. Everything else stays the same, so no allocation changes an
object that exists. -/
theorem codegenCluster_frame (h : Called act M cf c C f vs σ₀ s) (hregs : M.HeapRegs)
    (hrun : Runs M (.run f.body (f.env vs) σ₀) (.run stm ρ σ))
    (hpath : Path M ps (.run stm ρ σ) (.run k ρ' σ'))
    (hmut : ∀ p ∈ ps, p.stm.isMutator = true)
    (hwrap : (σ.reg .ALLOC_PTR).toNat + heapSize ps < 2 ^ 64) :
    ∃ q q' ws, Follow act M C (startConfig C.body s) (.run stm ρ σ) (.run k ρ' σ') q q' ∧
      q'.st.trace = q.st.trace ++ ws ∧
      (∀ w ∈ ws,
        (σ.reg .ALLOC_PTR).toNat ≤ w.adr ∧ w.adr + w.size ≤ (σ'.reg .ALLOC_PTR).toNat ∨
        w.size = 8 ∧ ∃ p ∈ ps, (p.storeAdr M).map (·.toNat) = some w.adr) ∧
      ∀ a n, (a + n ≤ (σ.reg .ALLOC_PTR).toNat ∨ (σ'.reg .ALLOC_PTR).toNat ≤ a) →
        (∀ p ∈ ps, p.Spares M a n) → q'.st.mem.read a n = q.st.mem.read a n := by
  obtain ⟨q, q', hfollow, hmem, htrace, hmem', htrace'⟩ := h.follow hrun hpath
  obtain ⟨es, hes⟩ := hpath.effects hregs hmut hwrap
  refine ⟨q, q', es.flatMap (·.writes), hfollow, by rw [htrace, htrace', hes.trace],
    fun w hw => ?_, fun a n hold hspare => ?_⟩
  · obtain ⟨e, he, hw⟩ := List.mem_flatMap.mp hw
    rcases List.mem_append.mp hw with hw | hw
    · exact .inl (hes.inside e he w hw)
    · exact .inr (hes.outs e he w hw)
  · rw [hmem, hmem']
    exact hes.read_eq hold hspare

/-- After a record is made, whatever path is taken, the code of a plain read of a field that is
generated there gives the value that the field got, as long as no statement stores to it. The
code of a `SELECT` of the same field is undefined: its load is marked as invariant, and the
statement that made the record has stored to the field. -/
theorem codegenCluster_field (h : Called act M cf c C f vs σ₀ s) (hregs : M.HeapRegs)
    {desc : Asdl.Integer} {m : Bool} {args : List (Exp .cpp)} {lhs x : LVar} {us : List MLVal}
    {i : Nat} {v : MLVal}
    (hrun : Runs M (.run f.body (f.env vs) σ₀)
      (.run (.ALLOC (.RECORD desc m) args lhs stm) ρ σ))
    (hpath : Path M (⟨.ALLOC (.RECORD desc m) args lhs stm, ρ, σ⟩ :: ps)
      (.run (.ALLOC (.RECORD desc m) args lhs stm) ρ σ) (.run k ρ' σ'))
    (hvs : Exp.evalArgs M ρ σ args = some us) (hv : us[i]? = some v)
    (hmut : ∀ p ∈ ps, p.stm.isMutator = true)
    (hwrap : (σ.reg .ALLOC_PTR).toNat + (8 * (args.length + 1) + heapSize ps) < 2 ^ 64)
    (hspare : ∀ p ∈ ps, p.Spares M ((σ.reg .ALLOC_PTR).toNat + 8 * (i + 1)) 8)
    (hx : ρ' x = some (.ml (σ.reg .ALLOC_PTR + 8))) :
    ∃ q q' fs d₀ frag path d, Follow act M C (startConfig C.body s)
        (.run (.ALLOC (.RECORD desc m) args lhs stm) ρ σ) (.run k ρ' σ') q q' ∧
      Visits (.frags fs 0, d₀) (.stm frag k path, d) ∧ q' = d.config C q'.st ∧
      (∀ exp, FieldRead M ρ' σ' x i exp → exp.codegen.Does act d q'.st fun u d' st' =>
        Quiet d d' q'.st st' ∧ Holds act d' st' u (.ml v.word)) ∧
      (Exp.SELECT i (.VAR x)).codegen.exec act d q'.st = none := by
  obtain ⟨q, q', hfollow, -⟩ := h.follow hrun hpath
  obtain ⟨fs, d₀, -, hm⟩ := hfollow.agrees
  obtain ⟨hi, hload, hfixed⟩ := hpath.field hregs hvs hmut hwrap hv hspare
  cases hm with
  | run hv' ht =>
      refine ⟨q, _, _, _, _, _, _, hfollow, hv', rfl, fun exp hread => ?_, ?_⟩
      · exact Exp.does_eval _ ht ((hread.eval hx).trans (by rw [hload]))
      · refine Exp.exec_select ht hx (by omega) (by omega) ?_
        rw [ofInt_words]
        exact hfixed

end

/-- The memory of the program outside of the new objects. -/
theorem codegenCluster_frame_boxUp : ∃ (k : Stm .cpp) (ρ' : Env) (σ' : MState) (q q' : _),
    Follow boxArgs boxMachine boxUpEnd (startConfig boxUpEnd.body ⟨fun _ => [], boxState.mem, []⟩)
      (.run boxUp.frags[0].body boxEnv boxState) (.run k ρ' σ') q q' ∧
    (σ'.reg .ALLOC_PTR).toNat = 4136 ∧ q'.st.mem.read 2048 8 = q.st.mem.read 2048 8 := by
  obtain ⟨q, q', ws, hfollow, -, -, hframe⟩ := codegenCluster_frame called_boxUp heapRegs_boxUp
    .refl (.cons rfl (.cons rfl (.cons rfl .nil)))
    (List.forall_mem_cons.mpr ⟨rfl, List.forall_mem_cons.mpr ⟨rfl,
      List.forall_mem_cons.mpr ⟨rfl, nofun⟩⟩⟩) (by decide)
  refine ⟨_, _, _, q, q', hfollow, rfl, hframe 2048 8 (.inl (by decide)) ?_⟩
  exact List.forall_mem_cons.mpr ⟨nofun, List.forall_mem_cons.mpr ⟨nofun,
    List.forall_mem_cons.mpr ⟨fun w hw => Option.some.inj hw ▸ .inr (by decide), nofun⟩⟩⟩

/-- The first field of the record is there after the assignment, for a `DEREF`. -/
theorem codegenCluster_field_boxUp : ∃ (a a' : Cfg.Config) (q q' : _) (d : Context),
    Follow boxArgs boxMachine boxUpEnd (startConfig boxUpEnd.body ⟨fun _ => [], boxState.mem, []⟩)
      a a' q q' ∧ q' = d.config boxUpEnd q'.st ∧
    ((Exp.LOOKER .DEREF [.VAR 12] : Exp .cpp).codegen.Does boxArgs d q'.st fun u d' st' =>
      Quiet d d' q'.st st' ∧ Holds boxArgs d' st' u (.ml 1024)) ∧
    (Exp.SELECT (0 : Nat) (.VAR 12)).codegen.exec boxArgs d q'.st = none := by
  obtain ⟨q, q', fs, d₀, frag, path, d, hfollow, -, hq', hread, hselect⟩ :=
    codegenCluster_field called_boxUp heapRegs_boxUp (i := 0) (x := 12)
      (.single rfl) (.cons rfl (.cons rfl .nil)) rfl rfl
      (List.forall_mem_cons.mpr ⟨rfl, nofun⟩) (by decide)
      (List.forall_mem_cons.mpr ⟨fun w hw => Option.some.inj hw ▸ .inr (by decide), nofun⟩) rfl
  exact ⟨_, _, q, q', d, hfollow, hq', hread _ .deref, hselect⟩

end SmlnjCfg.Codegen
