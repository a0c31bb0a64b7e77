import SmlnjCfg.Codegen.Collect
import SmlnjCfg.Codegen.Leave

/-!
# `SmlnjCfg.Codegen.Simulate`: the code of a cluster means what the program means

Every step of the machine is followed by the code that was generated for the
statement: within a block, over an edge to an arm or a fragment, or by a call that
does not come back. So a run of the machine from the entry of a cluster is followed
by a run of the function from its first block.

* `Matches`: a configuration of the machine and one of the code.
* `Compiled.follows`: one statement.
* `Compiled.simulates`: the simulation.
* `Enters`, `Compiled.start`: the function is called with the words of the arguments.
* `codegenCluster_runs`, `codegenCluster_ends`: runs from the entry.
-/

set_option autoImplicit false

namespace SmlnjCfg

namespace Cfg

/-- The number of statements in a row. -/
def Stm.chain : Stm .cpp → Nat
  | .LET _ _ k => k.chain + 1
  | .ALLOC _ _ _ k => k.chain + 1
  | .ARITH _ _ _ k => k.chain + 1
  | .SETTER _ _ k => k.chain + 1
  | .CALLGC _ _ k => k.chain + 1
  | _ => 1

/-- The number of statements before the next jump. -/
def Config.size : Config → Nat
  | .run s _ _ => s.chain
  | .exit .. => 0

theorem Stm.chain_pos (s : Stm .cpp) : 0 < s.chain := by
  cases s <;> exact Nat.succ_pos _

theorem Stm.chain_next {s k : Stm .cpp} (hk : s.kids = .next k) : k.chain < s.chain := by
  cases s <;> cases hk <;> exact Nat.lt_succ_self _

end Cfg

namespace Codegen

open Cfg Gen IR

variable {act : Activation Sym} {M : Machine} {ρ : Env} {σ : MState} {cf : ClusterFn}
  {c C d₀ : Context} {fs : List FragBB}

/-! ### Configurations -/

/-- The code is where code generation was for the statement that the machine is at,
or both have left the cluster by the same call. -/
inductive Matches (act : Activation Sym) (M : Machine) (C d₀ : Context) (fs : List FragBB) :
    Cfg.Config → IR.Config BBId Sym → Prop
  | run {frag : Nat} {s : Stm .cpp} {path : List Nat} {ρ : Env} {σ : MState} {d : Context}
      {st : State} (visits : Visits (.frags fs 0, d₀) (.stm frag s path, d))
      (tracks : Tracks act M ρ σ d st) : Matches act M C d₀ fs (.run s ρ σ) (d.config C st)
  | exit {isTail : Bool} {fn : Word} {args : List (Option Word)} {σ : MState}
      {q : IR.Config BBId Sym} (leaves : Leaves act isTail fn args σ q) :
      Matches act M C d₀ fs (.exit isTail fn args σ) q

/-- The code has the memory and the stores of the machine, and leaves the cluster when
it does. -/
def Agrees (act : Activation Sym) : Cfg.Config → IR.Config BBId Sym → Prop
  | .run _ _ σ, q => q.st.mem = σ.mem ∧ q.st.trace = σ.trace
  | .exit isTail fn args σ, q => Leaves act isTail fn args σ q

theorem Matches.agrees {q : Cfg.Config} {q' : IR.Config BBId Sym}
    (h : Matches act M C d₀ fs q q') : Agrees act q q' := by
  cases h with
  | run _ ht => exact ⟨ht.mem, ht.trace⟩
  | exit hl => exact hl

/-! ### One statement -/

/-- The code makes steps until it matches `q`; if it makes none, then less is left of
the fragment. -/
def Follows (act : Activation Sym) (M : Machine) (C d₀ : Context) (fs : List FragBB)
    (s : Stm .cpp) (b : IR.Config BBId Sym) (q : Cfg.Config) : Prop :=
  ∃ q', Matches act M C d₀ fs q q' ∧ (Simulation.Plus (next act C.body) b q' ∨
    Simulation.Star (next act C.body) b q' ∧ q.size < s.chain)

theorem Follows.exit {s : Stm .cpp} {b q' : IR.Config BBId Sym} {isTail : Bool} {fn : Word}
    {args : List (Option Word)} (hreach : Reaches act C.body b q')
    (hl : Leaves act isTail fn args σ q') :
    Follows act M C d₀ fs s b (.exit isTail fn args σ) :=
  ⟨q', .exit hl, .inr ⟨hreach, s.chain_pos⟩⟩

namespace Compiled

variable {frag : Nat} {s k : Stm .cpp} {path : List Nat} {d : Context} {st : State}

/-- The point after a statement that another one follows. -/
theorem followsNext {ρ' : Env} {σ' : MState} {d' : Context} {st' : State} (hk : s.kids = .next k)
    (hv : Visits (.frags fs 0, d₀) (.stm frag k path, d')) (ht : Tracks act M ρ' σ' d' st')
    (hreach : Reaches act C.body (d.config C st) (d'.config C st')) :
    Follows act M C d₀ fs s (d.config C st) (.run k ρ' σ') :=
  ⟨_, .run hv ht, .inr ⟨hreach, Stm.chain_next hk⟩⟩

/-- A statement whose code is in one block, and stores what the machine stores. -/
theorem followsStraight (h : Compiled act M cf c C fs d₀) {ρ' : Env} {σ' : MState}
    (hv : Visits (.frags fs 0, d₀) (.stm frag s path, d)) (htrace : st.trace = σ.trace)
    (hkeep : keeps M.fixed (σ'.trace.drop σ.trace.length) = true) (hk : s.kids = .next k)
    (hcode : ∀ d', s.head frag path d = .ok ((), d') →
      ∃ st', Straight act d d' st st' ∧ Tracks act M ρ' σ' d' st') :
    Follows act M C d₀ fs s (d.config C st) (.run k ρ' σ') := by
  obtain ⟨d', hhead, hnext⟩ := (h.visited hv).next hk
  obtain ⟨st', hst, ht⟩ := hcode d' hhead
  rw [← h.linked.fixed, ← ht.trace, ← htrace] at hkeep
  exact followsNext hk (hv.tail (.next hk hhead)) ht
    (hst.reaches hkeep ((hnext.grows _ d' .refl).block_grows d'.curBB))

/-- The variables that a statement binds have no values before. -/
theorem unbound (h : Compiled act M cf c C fs d₀)
    (hv : Visits (.frags fs 0, d₀) (.stm frag s path, d)) {lv : LVar} (hlv : lv ∈ s.binds) :
    d.vMap lv = none :=
  (h.fresh h.unique hv).2 lv (by
    rw [Code.binders, Stm.binders_eq]
    exact List.mem_append_left _ hlv)

/-- The code of a statement does what the machine does. -/
theorem follows (h : Compiled act M cf c C fs d₀) {q : Cfg.Config}
    (hv : Visits (.frags fs 0, d₀) (.stm frag s path, d)) (ht : Tracks act M ρ σ d st)
    (hstep : s.step M ρ σ = some q) : Follows act M C d₀ fs s (d.config C st) q := by
  obtain ⟨hstep, hkeep⟩ := Stm.step_eq_some.mp hstep
  cases s with
  | LET exp param k =>
      obtain ⟨v, hval, ⟨⟩⟩ := Option.bind_eq_some_iff.mp hstep
      refine h.followsStraight hv ht.trace hkeep rfl fun d' hhead => ?_
      obtain ⟨u, c₁, h₁, h₂⟩ := CodegenM.bind_ok.mp hhead
      obtain ⟨s₁, hst₁, -, hq₁, hu⟩ := (Exp.does_eval exp ht hval).of_run h₁
      have hfree : c₁.vMap param.name = none := by
        rw [hq₁.vMap, h.unbound hv List.mem_cons_self]
      obtain ⟨ht', hst', -⟩ := (ht.quiet hq₁).bind hu hfree h₂
      exact ⟨s₁, hst₁.trans hst', ht'⟩
  | ALLOC oper args lhs k =>
      obtain ⟨vs, hvs, hstep⟩ := Option.bind_eq_some_iff.mp hstep
      obtain ⟨⟨w, σ'⟩, hw, ⟨⟩⟩ := Option.bind_eq_some_iff.mp hstep
      refine h.followsStraight hv ht.trace hkeep rfl fun d' hhead => ?_
      obtain ⟨us, c₁, h₁, h₂⟩ := CodegenM.bind_ok.mp hhead
      obtain ⟨u, c₂, h₃, h₄⟩ := CodegenM.bind_ok.mp h₂
      obtain ⟨s₁, hst₁, -, hq₁, hus⟩ := (Exp.does_evalArgs args ht hvs).of_run h₁
      obtain ⟨s₂, hst₂, -, -, ht₂, hu⟩ :=
        (CfgPrim.Alloc.does_eval (ht.quiet hq₁) hus hw).of_run h₃
      have hfree : c₂.vMap lhs = none := by
        rw [vMap_of_run h₃, hq₁.vMap, h.unbound hv List.mem_cons_self]
      obtain ⟨ht', hst', -⟩ := ht₂.bind hu hfree h₄
      exact ⟨s₂, hst₁.trans (hst₂.trans hst'), ht'⟩
  | APPLY fn args tys =>
      obtain ⟨f, ws, q', rfl, hreach, hl⟩ := h.apply hv ht hstep
      exact .exit hreach hl
  | THROW fn args tys =>
      obtain ⟨f, ws, q', rfl, hreach, hl⟩ := h.throw hv ht hstep
      exact .exit hreach hl
  | GOTO lab args =>
      obtain ⟨vs, hvs, hstep⟩ := Option.bind_eq_some_iff.mp hstep
      obtain ⟨i, f, d', s', rfl, hv', ht', hplus⟩ := h.goto hv ht hvs hstep
      exact ⟨_, .run hv' ht', .inl hplus⟩
  | SWITCH arg cases =>
      obtain ⟨v, hval, hstep⟩ := Option.bind_eq_some_iff.mp hstep
      obtain ⟨k, hk, ⟨⟩⟩ := Option.bind_eq_some_iff.mp hstep
      obtain ⟨i, d', s', hv', ht', hplus⟩ := h.switch hv ht hval hk
      exact ⟨_, .run hv' ht', .inl hplus⟩
  | BRANCH oper args prob trueK falseK =>
      obtain ⟨vs, hvs, hstep⟩ := Option.bind_eq_some_iff.mp hstep
      obtain ⟨b, hb, ⟨⟩⟩ := Option.bind_eq_some_iff.mp hstep
      obtain ⟨i, d', s', hv', ht', hplus⟩ := h.branch hv ht hvs hb
      exact ⟨_, .run hv' ht', .inl hplus⟩
  | ARITH oper args param k =>
      cases oper with
      | FLOAT_TO_INT mode fromSz toSz => cases hstep
      | ARITH op sz =>
          cases op with
          | undeclared tag => cases hstep
          | con op =>
              obtain ⟨a, b, hvs, rfl, harith⟩ : ∃ a b, Exp.evalArgs M ρ σ args = some [a, b] ∧
                  sz = 64 ∧ arithStep M ρ σ op a.word b.word param k = some q := by
                rw [Stm.eval] at hstep
                split at hstep
                next a b hvs =>
                  obtain ⟨hsz, hstep⟩ := Option.ite_none_right_eq_some.mp hstep
                  exact ⟨a, b, hvs, hsz, hstep⟩
                next => cases hstep
              rcases h.arith hv ht hvs harith with
                ⟨v, d', s', rfl, hv', ht', hreach⟩ | ⟨f, ws, q', rfl, hreach, hl⟩
              · exact followsNext rfl hv' ht' hreach
              · exact .exit hreach hl
  | SETTER oper args k =>
      obtain ⟨vs, hvs, hstep⟩ := Option.bind_eq_some_iff.mp hstep
      obtain ⟨σ', hσ', ⟨⟩⟩ := Option.bind_eq_some_iff.mp hstep
      refine h.followsStraight hv ht.trace hkeep rfl fun d' hhead => ?_
      obtain ⟨us, c₁, h₁, h₂⟩ := CodegenM.bind_ok.mp hhead
      obtain ⟨s₁, hst₁, -, hq₁, hus⟩ := (Exp.does_evalArgs args ht hvs).of_run h₁
      obtain ⟨s₂, hst₂, -, -, ht₂⟩ := (CfgPrim.Setter.does_eval (ht.quiet hq₁) hus hσ').of_run h₂
      exact ⟨s₂, hst₁.trans hst₂, ht₂⟩
  | CALLGC roots newRoots k =>
      obtain ⟨vs, hvs, hstep⟩ := Option.bind_eq_some_iff.mp hstep
      obtain ⟨hnodup, -⟩ := h.fresh h.unique hv
      rw [Code.binders, Stm.binders_eq] at hnodup
      have hnew : newRoots.Nodup := (List.nodup_append.mp hnodup).1
      have hunbound : ∀ lv ∈ newRoots, d.vMap lv = none := fun lv hlv => h.unbound hv hlv
      obtain ⟨d', hhead, -⟩ := (h.visited hv).next rfl
      obtain ⟨ρ', σ', s', rfl, hst, ht'⟩ := straight_callGC ht hvs hnew hunbound hstep hhead
      refine h.followsStraight hv ht.trace hkeep rfl fun d'' hhead' => ?_
      rw [hhead] at hhead'
      cases hhead'
      exact ⟨s', hst, ht'⟩
  | RCC reentrant linkage proto args results live k => cases hstep

/-- The code of a cluster follows the machine. -/
theorem simulates (h : Compiled act M cf c C fs d₀) :
    Simulation.Simulates (Cfg.Config.step M) (next act C.body) (Matches act M C d₀ fs)
      Cfg.Config.size where
  step hm hstep := by
    cases hm with
    | run hv ht => exact h.follows hv ht hstep
    | exit hl => cases hstep

end Compiled

/-! ### The entry of a cluster -/

/-- The function of a cluster is called with the special registers, the unused arguments
of the convention and the words of `vs`. -/
structure Enters (act : Activation Sym) (M : Machine) (cf : ClusterFn) (f : Frag .cpp)
    (vs : List MLVal) (σ : MState) (s : State) : Prop where
  head : cf.cluster.frags.head? = some f
  accepts : f.accepts vs = true
  call : ∃ kind junk, f.kind = .con kind ∧ kind ≠ .INTERNAL ∧ cf.fn.fnTy
      = paramTysOf (argInfo M.target cf.cluster.attrs.needsBasePtr kind) ++ userTys f ∧
    junk.length = kind.unused ∧
    act.args = (M.machineWords σ).map some ++ junk ++ vs.map fun v => some v.word
  mem : s.mem = σ.mem
  trace : s.trace = σ.trace

/-- Execution at the first block of a function. -/
def startConfig (F : Body) (s : State) : IR.Config BBId Sym := ⟨.stm 0 [], F.block (.stm 0 []), s⟩

/-- All arguments of a function, in its first block. -/
theorem argSlots_eval {fnTy : List IR.Ty} {args : List (Option Word)} (hargs : act.args = args)
    (hlen : fnTy.length = args.length) (regs : Nat → List Word) :
    (argSlots fnTy).map (·.eval act regs) = args := by
  refine List.ext_getElem (by simpa [argSlots] using hlen) fun i hi hi' => ?_
  simp only [argSlots, List.getElem_map, List.getElem_mapIdx]
  show (act.args[i]?).join = _
  rw [hargs, List.getElem?_eq_getElem hi']
  rfl

theorem argSlots_getType (fnTy : List IR.Ty) : (argSlots fnTy).map (·.getType) = fnTy := by
  refine List.ext_getElem (by simp [argSlots]) fun i _ _ => ?_
  simp only [argSlots, List.getElem_map, List.getElem_mapIdx]
  rfl

/-- The code of the entry starts with the registers and the arguments of the machine. -/
theorem Compiled.start (h : Compiled act M cf c C fs d₀) {f : Frag .cpp} {vs : List MLVal}
    {s : State} (he : Enters act M cf f vs σ s) :
    Matches act M C d₀ fs (.run f.body (f.env vs) σ) (startConfig C.body s) := by
  obtain ⟨kind, junk, hk, -, hty, hjunk, hargs⟩ := he.call
  obtain ⟨fb, hf, rfl⟩ : ∃ fb, fs[0]? = some fb ∧ fb.frag = f := by
    have hhead := he.head
    rw [← h.inits.frags, List.head?_map, List.head?_eq_getElem?, Option.map_eq_some_iff] at hhead
    exact hhead
  obtain ⟨d, d', hstart, hbb, hunused, hlink, hv⟩ := h.visitsFrag hf
  have hvisit := h.visited hv
  have hfn : d.curFn = some cf.fn := by
    have hcur : d'.curFn = d₀.curFn :=
      (hv.grows h.ready h.emits).curFn.symm.trans h.grows.curFn
    have hd₀ : d₀.curFn = some cf.fn := by
      rw [h.inits.frame]
      rfl
    obtain ⟨hadv, -⟩ := fragStart_ok hbb hstart
    exact (hadv.grows.curFn.symm.trans hcur).trans hd₀
  obtain ⟨hvs, -⟩ : vs.length = fb.frag.params.length ∧ _ := by
    simpa [Frag.accepts] using he.accepts
  have hlen : cf.fn.fnTy.length
      = M.target.numMachineRegs + kind.unused + fb.frag.params.length := by
    rw [hty, List.length_append, length_implicit h.linked.pcRel, userTys, List.length_map]
  have hunique := h.unique fb.frag (List.mem_of_mem_head? he.head)
  have hstarts := fragStart_std (hlink.target ▸ hlink.pcRel) hfn hk
    (by rw [hlink.target]; exact hlen) (List.nodup_append.mp hunique).1 hstart
  -- the arguments are in their places
  have htys : (argSlots cf.fn.fnTy).map (·.getType) = List.replicate M.target.numMachineRegs ptrTy
      ++ List.replicate kind.unused ptrTy ++ userTys fb.frag := by
    rw [argSlots_getType, hty, argInfo_of_pcRel h.linked.pcRel]
    simp [paramTysOf, FragKind.unused]
  have hargc : cf.fn.fnTy.length
      = ((M.machineWords σ).map some ++ junk ++ vs.map fun v => some v.word).length := by
    rw [hlen, List.length_append, List.length_append, List.length_map, List.length_map, hjunk, hvs,
      Machine.machineWords, List.length_map]
    rfl
  have hslots : SlotsHold act M σ fb.frag vs s (argSlots cf.fn.fnTy) kind.unused :=
    ⟨⟨_, List.length_replicate, htys⟩, junk, hjunk, argSlots_eval hargs hargc s.regs⟩
  have htracks := hstarts.tracks hslots he.accepts hlink hvisit.computed hvisit.placed he.mem he.trace
  have hcur : d'.curBB = .stm 0 [] := by
    rw [hstarts.ctx]
    exact hbb
  have hfree : Unused d' d'.curBB := by
    rw [hcur, ← hbb]
    refine hunused.of_body ?_
    rw [hstarts.ctx]
  have hconfig : d'.config C s = startConfig C.body s := by
    rw [Context.config, Context.rest_of_unused hfree, hcur]
    rfl
  exact hconfig ▸ .run hv htracks

/-! ### Runs -/

section

variable {f : Frag .cpp} {vs : List MLVal} {s : State}

/-- A cluster that code was generated for. -/
theorem exists_compiled (h : codegenCluster cf c = .ok ((), C)) (hlink : Linked act M c)
    (hfrags : M.frags = cf.cluster.frags) (hunique : ∀ f ∈ cf.cluster.frags, f.UniqueBinds)
    (he : Enters act M cf f vs σ s) : ∃ fs d₀, Compiled act M cf c C fs d₀ := by
  obtain ⟨fs, d₀, hgen⟩ := clusterGen_of_codegen h
  refine ⟨fs, d₀, hgen, hlink, hfrags, hunique, fun g hg hk => ?_⟩
  obtain ⟨kind, -, hkind, hne, -⟩ := he.call
  rw [he.head] at hg
  cases hg
  rw [hkind] at hk
  exact hne (Tagged.con.inj hk)

/-- Every run of the machine from the entry of a cluster is followed by the function
that `cluster::codegen` makes, with the same memory, the same stores in the same
order, and the same call when it leaves. What is promised never to change does not, so
it does not matter when an invariant load is executed. -/
theorem codegenCluster_runs (h : codegenCluster cf c = .ok ((), C)) (hlink : Linked act M c)
    (hfrags : M.frags = cf.cluster.frags) (hunique : ∀ f ∈ cf.cluster.frags, f.UniqueBinds)
    (he : Enters act M cf f vs σ s) {q : Cfg.Config} (hrun : Runs M (.run f.body (f.env vs) σ) q) :
    ∃ q', Reaches act C.body (startConfig C.body s) q' ∧ Agrees act q q' ∧
      ∀ a, M.fixed a = true → q'.st.mem a = σ.mem a := by
  obtain ⟨fs, d₀, hc⟩ := exists_compiled h hlink hfrags hunique he
  obtain ⟨q', hreach, hm⟩ := hc.simulates.star hrun (hc.start he)
  refine ⟨q', hreach, hm.agrees, fun a ha => ?_⟩
  rw [← hlink.fixed] at ha
  rw [Reaches.fixed hreach ha, ← he.mem]
  rfl

end

/-! ### A loop -/

/-- A cluster that counts down and then throws. -/
def countDown : Cluster .cpp where
  attrs := ⟨0, false, false, false⟩
  frags := [
    { kind := .con .STD_FUN, lab := 1, params := [⟨10, .PTRt⟩, ⟨11, .TAGt⟩],
      body := .GOTO 2 [.VAR 10, .VAR 11] },
    { kind := .con .INTERNAL, lab := 2, params := [⟨20, .PTRt⟩, ⟨21, .TAGt⟩],
      body := .BRANCH (.CMP (.con .EQL) true 64) [.VAR 21, .NUM ⟨false, [0]⟩ 64] 0
        (.THROW (.VAR 20) [.VAR 21] [.TAGt])
        (.LET (.PURE (.PURE_ARITH (.con .SUB) 64) [.VAR 21, .NUM ⟨false, [1]⟩ 64]) ⟨22, .TAGt⟩
          (.GOTO 2 [.VAR 20, .VAR 22])) }]

/-- The cluster with its function. -/
def countDownFn : ClusterFn := ⟨countDown, ⟨1, List.replicate 6 ptrTy ++ [intTy]⟩⟩

/-- The context after code generation for it. -/
def countDownEnd : Context := CodegenM.after (codegenCluster countDownFn) (Context.create arm64Info)

/-- A machine without other clusters. -/
def aloneMachine (t : TargetInfo) (cluster : Cluster .cpp) : Machine where
  target := t
  sp := 0
  label _ := 0
  code _ := 0
  entry _ := none
  frags := cluster.frags
  call _ _ mem := ([], mem)
  fixed _ := false

/-- A call of the function with the continuation `7` and the number `n`. -/
def countDownArgs (n : Word) : Activation Sym where
  host := (CfgPrim.floatArgs 0 0).host
  args := List.replicate 5 (some 0) ++ [some 7, some n]

/-- All registers and the memory are zero. -/
def zeroState : MState := ⟨fun _ => 0, fun _ => 0, []⟩

theorem enters_countDown (n : Word) :
    Enters (countDownArgs n) (aloneMachine arm64Info countDown) countDownFn countDown.frags[0]
      [.ml 7, .int n] zeroState ⟨fun _ => [], fun _ => 0, []⟩ where
  head := rfl
  accepts := rfl
  call := ⟨.STD_FUN, [], rfl, by decide, rfl, rfl, rfl⟩
  mem := rfl
  trace := rfl

theorem codegenCluster_countDown :
    codegenCluster countDownFn (Context.create arm64Info) = .ok ((), countDownEnd) := by
  obtain ⟨⟨⟩, h⟩ := CodegenM.after_ok (x := codegenCluster countDownFn)
    (c := Context.create arm64Info) (by decide +kernel)
  exact h

theorem linked_countDown (n : Word) : Linked (countDownArgs n) (aloneMachine arm64Info countDown)
    (Context.create arm64Info) := ⟨rfl, rfl, rfl, rfl, rfl, nofun⟩

/-- From one, the loop is left after its second test. -/
theorem runs_countDown : Runs (aloneMachine arm64Info countDown)
    (.run countDown.frags[0].body (countDown.frags[0].env [.ml 7, .int 1]) zeroState)
    (.exit true 7 (List.replicate 5 (some 0) ++ [none, none, some 0]) zeroState) :=
  .head rfl (.head rfl (.head rfl (.head rfl (.head rfl (.head rfl .refl)))))

/-- The code of the loop calls the continuation. -/
theorem codegenCluster_runs_countDown :
    ∃ q', Reaches (countDownArgs 1) countDownEnd.body
        (startConfig countDownEnd.body ⟨fun _ => [], fun _ => 0, []⟩) q' ∧
      Agrees (countDownArgs 1)
        (.exit true 7 (List.replicate 5 (some 0) ++ [none, none, some 0]) zeroState) q' ∧
      ∀ a, (aloneMachine arm64Info countDown).fixed a = true → q'.st.mem a = zeroState.mem a :=
  codegenCluster_runs codegenCluster_countDown (linked_countDown 1) rfl (by decide)
    (enters_countDown 1) runs_countDown

section

variable {f : Frag .cpp} {vs : List MLVal} {s : State}

/-- The function ends as the machine does, and only then: if the machine leaves the
cluster, then the function comes to that call, however far it got, and if the machine
runs forever, so does the function. -/
theorem codegenCluster_ends (h : codegenCluster cf c = .ok ((), C)) (hlink : Linked act M c)
    (hfrags : M.frags = cf.cluster.frags) (hunique : ∀ f ∈ cf.cluster.frags, f.UniqueBinds)
    (he : Enters act M cf f vs σ s) :
    (∀ isTail fn args σ', Runs M (.run f.body (f.env vs) σ) (.exit isTail fn args σ') →
      ∃ q', Leaves act isTail fn args σ' q' ∧ ∀ q₁,
        Reaches act C.body (startConfig C.body s) q₁ → Reaches act C.body q₁ q') ∧
    (Simulation.Forever (Cfg.Config.step M) (.run f.body (f.env vs) σ) →
      Simulation.Forever (next act C.body) (startConfig C.body s)) := by
  obtain ⟨fs, d₀, hc⟩ := exists_compiled h hlink hfrags hunique he
  refine ⟨fun isTail fn args σ' hrun => ?_, fun hforever => ?_⟩
  · have hstuck : ∀ q', Matches act M C d₀ fs (.exit isTail fn args σ') q' →
        next act C.body q' = none := by
      intro q' hm
      cases hm with
      | exit hl => exact hl.next
    obtain ⟨q', hm, honly⟩ := hc.simulates.only hrun (hc.start he) hstuck
    cases hm with
    | exit hl => exact ⟨q', hl, honly⟩
  · exact hc.simulates.forever hforever (hc.start he)

end

/-- The code of the loop comes to that call, however far it got. -/
theorem codegenCluster_ends_countDown :
    ∃ q', Leaves (countDownArgs 1) true 7 (List.replicate 5 (some 0) ++ [none, none, some 0])
        zeroState q' ∧
      ∀ q₁, Reaches (countDownArgs 1) countDownEnd.body
          (startConfig countDownEnd.body ⟨fun _ => [], fun _ => 0, []⟩) q₁ →
        Reaches (countDownArgs 1) countDownEnd.body q₁ q' :=
  (codegenCluster_ends codegenCluster_countDown (linked_countDown 1) rfl (by decide)
    (enters_countDown 1)).1 _ _ _ _ runs_countDown

end Codegen

end SmlnjCfg
