import SmlnjCfg.Cfg.Program
import SmlnjCfg.Codegen.Blocks
import SmlnjCfg.Codegen.Simulate
import SmlnjCfg.IR.Module

/-!
# `SmlnjCfg.Codegen.Unit`: the code of a compilation unit

`comp_unit::codegen` makes one function for each cluster. Here the functions call each
other as the clusters do: a run of the program, from a call of one of its clusters and
through any number of them, is followed by the module.

* `initClusters_ok`, `codegenClusters_ok`: the functions, and what they know of each other.
* `Program.Config.Matches`: a configuration of the program and one of the module.
* `codegenCompUnit_runs`, `codegenCompUnit_ends`: runs from a call.
-/

set_option autoImplicit false

namespace SmlnjCfg.Codegen

open Cfg Gen IR

/-! ### Declarations -/

/-- `cf` is the function of the cluster `cl`: it has the label of the entry and the parameters of
the entry's convention. -/
structure Declares (t : TargetInfo) (cl : Cluster .cpp) (cf : ClusterFn) : Prop where
  cluster : cf.cluster = cl
  fn : ∃ f kind, cl.frags.head? = some f ∧ f.kind = .con kind ∧ cf.fn.name = f.lab ∧
    cf.fn.fnTy = paramTysOf (argInfo t cl.attrs.needsBasePtr kind) ++ userTys f

/-- A lookup in an extended map: the older entry is found first, as the source never replaces
one. -/
theorem or_find? {cf : ClusterFn} {cfs : List ClusterFn} {lab : LVar} (o : Option ClusterFn) :
    (o.or (if cf.fn.name = lab then some cf else none)).or (cfs.find? (·.fn.name = lab))
      = o.or ((cf :: cfs).find? (·.fn.name = lab)) := by
  rw [List.find?_cons]
  by_cases h : cf.fn.name = lab <;> cases o <;> simp [h]

/-- `cluster::init` declares a function and enters it into the map, unless the label is there
already. -/
theorem initCluster_ok {cl : Cluster .cpp} {cf : ClusterFn} {c c' : Context}
    (h : initCluster cl c = .ok (cf, c')) : Declares c.target cl cf ∧ c'.target = c.target ∧
      ∀ lab, c'.clusterMap lab
        = (c.clusterMap lab).or (if cf.fn.name = lab then some cf else none) := by
  obtain ⟨hcluster, f, hhead, hname, d, htarget, hcur, hty⟩ := initCluster_fnTy h
  obtain ⟨kind, hk⟩ : ∃ kind, f.kind = .con kind := by
    cases hk : f.kind with
    | con kind => exact ⟨kind, rfl⟩
    | undeclared n =>
        rw [hk] at hty
        cases hty
  refine ⟨⟨hcluster, f, kind, hhead, hk, hname, ?_⟩, ?_⟩
  · rw [hk, run_createFnTy, needsBasePtr, hcur, htarget] at hty
    exact (congrArg Prod.fst (Except.ok.inj hty)).symm
  · obtain ⟨f', c₁, h₁, h₂⟩ := CodegenM.bind_ok.mp h
    obtain ⟨-, rfl⟩ := run_deref_ok.mp h₁
    obtain ⟨⟨⟩, c₂, h₃, h₄⟩ := CodegenM.bind_ok.mp h₂
    cases h₃
    obtain ⟨fnTy, c₃, h₅, h₆⟩ := CodegenM.bind_ok.mp h₄
    obtain ⟨is, hext⟩ := ext_of_run h₅
    obtain ⟨⟨⟩, c₄, h₇, h₈⟩ := CodegenM.bind_ok.mp h₆
    cases h₇
    obtain ⟨rfl, rfl⟩ := CodegenM.pure_ok.mp h₈
    have hmap : c₃.clusterMap = c₁.clusterMap := by rw [hext.frame]
    refine ⟨by rw [hext.frame], fun lab => ?_⟩
    by_cases hlab : lab = f'.lab
    · subst hlab
      cases hc : c₁.clusterMap f'.lab <;> simp [hmap, hc]
    · simp [hmap, hlab, Ne.symm hlab]

/-- The functions of all clusters are declared before any of them gets code, so that each can call
every other one. -/
structure InitsClusters (cls : List (Cluster .cpp)) (cfs : List ClusterFn) (c c' : Context) :
    Prop where
  target : c'.target = c.target
  declares : List.Forall₂ (Declares c.target) cls cfs
  clusterMap : ∀ lab, c'.clusterMap lab
    = (c.clusterMap lab).or (cfs.find? (·.fn.name = lab))

/-- The declarations of a list of clusters, by induction on the list. -/
theorem initClusters_ok {cls : List (Cluster .cpp)} {cfs : List ClusterFn} {c c' : Context}
    (h : initClusters cls c = .ok (cfs, c')) : InitsClusters cls cfs c c' := by
  induction cls generalizing cfs c with
  | nil =>
      obtain ⟨rfl, rfl⟩ := CodegenM.pure_ok.mp h
      exact ⟨rfl, .nil, fun lab => by simp⟩
  | cons cl cls ih =>
      obtain ⟨cf, c₁, h₁, h₂⟩ := CodegenM.bind_ok.mp h
      obtain ⟨cfs', c₂, h₃, h₄⟩ := CodegenM.bind_ok.mp h₂
      obtain ⟨rfl, rfl⟩ := CodegenM.pure_ok.mp h₄
      obtain ⟨hdecl, htarget, hmap⟩ := initCluster_ok h₁
      have hrest := ih h₃
      refine ⟨hrest.target.trans htarget, .cons hdecl (htarget ▸ hrest.declares), fun lab => ?_⟩
      rw [hrest.clusterMap, hmap, or_find?]

/-! ### Functions -/

/-- What other functions are known stays the same while a cluster is compiled. -/
theorem codegenCluster_keeps {cf : ClusterFn} {c C : Context}
    (h : codegenCluster cf c = .ok ((), C)) :
    C.target = c.target ∧ C.clusterMap = c.clusterMap := by
  obtain ⟨fs, d₀, hgen⟩ := clusterGen_of_codegen h
  have hg := hgen.grows
  have hframe := hgen.inits.frame
  exact ⟨hg.target.trans (by rw [hframe]; rfl), hg.clusterMap.trans (by rw [hframe]; rfl)⟩

/-- A function of the module, and the context that it was made in: the target and the map of
functions are those of the module. -/
structure Makes (t : TargetInfo) (map : LVar → Option ClusterFn) (cf : ClusterFn)
    (p : LVar × Body) : Prop where
  name : p.1 = cf.fn.name
  body : ∃ c C, c.target = t ∧ c.clusterMap = map ∧ codegenCluster cf c = .ok ((), C) ∧
    p.2 = C.body

/-- The code of a list of clusters, each from the context that the one before it leaves. -/
theorem codegenClusters_ok {cfs : List ClusterFn} {fns : List (LVar × Body)} {c c' : Context}
    (h : codegenClusters cfs c = .ok (fns, c')) :
    List.Forall₂ (Makes c.target c.clusterMap) cfs fns := by
  induction cfs generalizing fns c with
  | nil =>
      obtain ⟨rfl, rfl⟩ := CodegenM.pure_ok.mp h
      exact .nil
  | cons cf cfs ih =>
      obtain ⟨⟨⟩, c₁, h₁, h₂⟩ := CodegenM.bind_ok.mp h
      obtain ⟨c₂, c₃, h₃, h₄⟩ := CodegenM.bind_ok.mp h₂
      cases h₃
      obtain ⟨fns', c₄, h₅, h₆⟩ := CodegenM.bind_ok.mp h₄
      obtain ⟨rfl, rfl⟩ := CodegenM.pure_ok.mp h₆
      obtain ⟨htarget, hmap⟩ := codegenCluster_keeps h₁
      have hrest := ih h₅
      rw [htarget, hmap] at hrest
      exact .cons ⟨rfl, c, _, rfl, rfl, h₁, rfl⟩ hrest

/-- The functions of a compilation unit: first the declarations of all of them, and then the code
of each with the same map. -/
theorem codegenCompUnit_ok {unit : CompUnit .cpp} {fns : List (LVar × Body)} {c c' : Context}
    (h : codegenCompUnit unit c = .ok (fns, c')) : ∃ cfs,
      List.Forall₂ (Declares c.target) unit.clusters cfs ∧
      List.Forall₂ (Makes c.target fun lab => cfs.find? (·.fn.name = lab)) cfs fns := by
  obtain ⟨⟨⟩, c₁, h₁, h₂⟩ := CodegenM.bind_ok.mp h
  cases h₁
  obtain ⟨cfs, c₂, h₃, h₄⟩ := CodegenM.bind_ok.mp h₂
  have hinits := initClusters_ok h₃
  have hmakes := codegenClusters_ok h₄
  have hmap : c₂.clusterMap = fun lab => cfs.find? (·.fn.name = lab) := by
    funext lab
    rw [hinits.clusterMap]
    rfl
  rw [hinits.target, hmap] at hmakes
  exact ⟨cfs, hinits.declares, hmakes⟩

/-! ### Calls -/

/-- What the module runs on is what the program runs on: the addresses of functions and aliases,
the stack pointer, the collector and the bytes that stay the same. -/
structure Hosts (host : Host Sym) (P : Program) : Prop where
  pcRel : P.target.hasPCRel = true
  sp : host.sp = P.sp
  call : host.call = P.call
  fixed : host.fixed = P.fixed
  label : ∀ lab, host.addr (.alias lab) = P.label lab
  code : ∀ lab, host.addr (.fn lab) = P.code lab

/-- The functions with their symbols, as the execution of modules takes them. -/
def moduleOf (fns : List (LVar × Body)) : List (Sym × Body) := fns.map fun p => (.fn p.1, p.2)

/-- Lookups in related lists find related elements, if the tests agree. -/
theorem forall₂_find? {α β : Type} {R : α → β → Prop} {p : α → Bool} {q : β → Bool}
    {as : List α} {bs : List β} (h : List.Forall₂ R as bs) (hpq : ∀ a b, R a b → p a = q b) :
    Option.Rel R (as.find? p) (bs.find? q) := by
  induction h with
  | nil => exact .none
  | @cons a b as bs hab _ ih =>
      rw [List.find?_cons, List.find?_cons, ← hpq a b hab]
      cases p a with
      | true => exact .some hab
      | false => exact ih

/-- Related lists in a row are related through the one between them. -/
theorem forall₂_trans {α β γ : Type} {R : α → β → Prop} {S : β → γ → Prop} {as : List α}
    {bs : List β} {cs : List γ} (h : List.Forall₂ R as bs) (h' : List.Forall₂ S bs cs) :
    List.Forall₂ (fun a c => ∃ b, R a b ∧ S b c) as cs := by
  induction h generalizing cs with
  | nil =>
      cases h'
      exact .nil
  | cons hab _ ih =>
      cases h' with
      | cons hbc hrest => exact .cons ⟨_, hab, hbc⟩ (ih hrest)

/-- The name of the function is the label of the cluster. -/
theorem Declares.labelOf {t : TargetInfo} {cl : Cluster .cpp} {cf : ClusterFn}
    (h : Declares t cl cf) : Program.labelOf cl = some cf.fn.name := by
  obtain ⟨f, kind, hhead, -, hname, -⟩ := h.fn
  rw [Program.labelOf, hhead, hname]
  rfl

section

variable {host : Host Sym} {P : Program} {cfs : List ClusterFn} {c : Context}

/-- The code of a cluster knows the other clusters: their addresses and their conventions. -/
theorem linked_machine (hhost : Hosts host P) (htarget : c.target = P.target)
    (hdecl : List.Forall₂ (Declares P.target) P.clusters cfs)
    (hmap : c.clusterMap = fun lab => cfs.find? (·.fn.name = lab)) (cl : Cluster .cpp)
    (args : List (Option Word)) : Linked ⟨host, args⟩ (P.machine cl) c where
  target := htarget
  pcRel := hhost.pcRel
  sp := hhost.sp
  call := hhost.call
  fixed := hhost.fixed
  clusters := by
    intro lab f hf
    have hrel := forall₂_find? (p := fun cl => Program.labelOf cl = some lab)
      (q := fun cf => cf.fn.name = lab) hdecl (fun cl cf h => by simp [h.labelOf])
    obtain ⟨cl', hcl', hf⟩ := Option.bind_eq_some_iff.mp hf
    rw [hcl'] at hrel
    cases hfind : cfs.find? (fun cf => cf.fn.name = lab) with
    | none => rw [hfind] at hrel; cases hrel
    | some cf =>
        rw [hfind] at hrel
        cases hrel with
        | some h =>
            obtain ⟨g, kind, hg, hk, hname, hty⟩ := h.fn
            have hlab : cf.fn.name = lab := by simpa using List.find?_some hfind
            rw [hf] at hg
            cases hg
            refine ⟨cf, (congrFun hmap lab).trans hfind, ?_, ⟨kind, hk, ?_⟩, ?_, ?_⟩
            · rw [h.cluster, hf]
            · rw [hty, h.cluster]
              rfl
            · rw [hlab]
              exact hhost.label lab
            · rw [hlab]
              exact hhost.code lab

/-- Arguments that all have values are those values. -/
theorem mapM_id_eq {ws : List Word} {as : List (Option Word)} (h : as.mapM id = some ws) :
    as = ws.map some := by
  induction as generalizing ws with
  | nil =>
      cases h
      rfl
  | cons a as ih =>
      simp only [List.mapM_cons, id, Option.bind_eq_bind, Option.bind_eq_some_iff, Option.pure_def,
        Option.some.injEq] at h
      obtain ⟨w, rfl, ws', hws', rfl⟩ := h
      rw [ih hws']
      rfl

/-- The function of a cluster is entered with the arguments of the program. -/
theorem enters_of_enter {cl : Cluster .cpp} {cf : ClusterFn} {args : List (Option Word)}
    {σ : MState} {q : Cfg.Config} (hdecl : Declares P.target cl cf)
    (h : P.enter cl args σ = some q) : ∃ f vs, q = .run f.body (f.env vs) σ ∧
      Enters ⟨host, args⟩ (P.machine cl) cf f vs σ ⟨fun _ => [], σ.mem, σ.trace⟩ := by
  obtain ⟨f, kind, hhead, hk, -, hty⟩ := hdecl.fn
  rw [Program.enter, hhead] at h
  simp only [Option.bind_eq_bind, Option.bind_some, hk] at h
  obtain ⟨ws, hws, h⟩ := Option.bind_eq_some_iff.mp h
  obtain ⟨⟨hne, hregs, hlen, haccepts⟩, h⟩ := Option.ite_none_right_eq_some.mp h
  cases h
  refine ⟨f, ws.map .ml, rfl, by rw [hdecl.cluster, hhead], haccepts, ?_, rfl, rfl⟩
  refine ⟨kind, (args.drop P.target.numMachineRegs).take kind.unused, hk, hne, ?_, ?_, ?_⟩
  · rw [hty, hdecl.cluster]
    rfl
  · rw [List.length_take, List.length_drop, hlen]
    omega
  · have hsplit : args = args.take P.target.numMachineRegs
        ++ (args.drop P.target.numMachineRegs).take kind.unused
        ++ args.drop (P.target.numMachineRegs + kind.unused) := by
      rw [List.append_assoc, ← List.drop_drop, List.take_append_drop, List.take_append_drop]
    show args = _
    rw [hregs, mapM_id_eq hws] at hsplit
    rw [List.map_map]
    exact hsplit

end

/-! ### Runs -/

/-- The function `p` is made for the cluster `cl`: one declared it, and its code was made in a
context of this module. -/
def Implements (P : Program) (cfs : List ClusterFn) (cl : Cluster .cpp) (p : LVar × Body) : Prop :=
  ∃ cf, Declares P.target cl cf ∧ Makes P.target (fun lab => cfs.find? (·.fn.name = lab)) cf p

/-- The code of the clusters of a program. No variable is bound twice in a fragment, since the map
of variables keeps the first binding. -/
structure Codes (host : Host Sym) (P : Program) (cfs : List ClusterFn) (fns : List (LVar × Body)) :
    Prop where
  hosts : Hosts host P
  unique : ∀ cl ∈ P.clusters, ∀ f ∈ cl.frags, f.UniqueBinds
  declares : List.Forall₂ (Declares P.target) P.clusters cfs
  implements : List.Forall₂ (Implements P cfs) P.clusters fns

/-- The function of the cluster that the program is in runs, and it matches. -/
inductive ProgMatches (host : Host Sym) (P : Program) : Program.Config → Frame BBId Sym → Prop
  | mk {cl : Cluster .cpp} {cf : ClusterFn} {args : List (Option Word)} {c C d₀ : Context}
      {fs : List FragBB} {q : Cfg.Config} {q' : IR.Config BBId Sym}
      (compiled : Compiled ⟨host, args⟩ (P.machine cl) cf c C fs d₀)
      (agrees : Matches ⟨host, args⟩ (P.machine cl) C d₀ fs q q') :
      ProgMatches host P ⟨cl, q⟩ ⟨C.body, args, q'⟩

namespace Codes

variable {host : Host Sym} {P : Program} {cfs : List ClusterFn} {fns : List (LVar × Body)}
  {fn : Word} {args : List (Option Word)} {σ : MState} {q : Program.Config}

/-- Both sides find the cluster at an address, or both do not, because they have the same labels
at the same addresses. -/
theorem lookup (h : Codes host P cfs fns) (fn : Word) :
    Option.Rel (fun cl p => ∃ p', p = (.fn p'.1, p'.2) ∧ Implements P cfs cl p')
      (P.clusterAt fn) ((moduleOf fns).find? fun p => host.addr p.1 = fn) := by
  refine forall₂_find? (List.forall₂_map_right_iff.mpr
    (h.implements.imp fun cl p hp => ⟨p, rfl, hp⟩)) fun cl p hp => ?_
  obtain ⟨p', rfl, cf, hdecl, hmake⟩ := hp
  simp [hdecl.labelOf, hmake.name, h.hosts.code]

/-- An address outside the program is outside the module, so both leave. -/
theorem call_none (h : Codes host P cfs fns) (hout : P.clusterAt fn = none)
    (as : List (Option Word)) (mem : Mem) (trace : List Write) :
    callFn host (moduleOf fns) fn as mem trace = none := by
  have hrel := h.lookup fn
  rw [hout] at hrel
  cases hfind : (moduleOf fns).find? fun p => host.addr p.1 = fn with
  | none =>
      rw [callFn, hfind]
      rfl
  | some p => rw [hfind] at hrel; cases hrel

/-- A call of a cluster is a call of its function, and the callee's states match. -/
theorem call (h : Codes host P cfs fns) (hcall : P.callStep fn args σ = some q) :
    ∃ fr, callFn host (moduleOf fns) fn args σ.mem σ.trace = some fr ∧ ProgMatches host P q fr := by
  obtain ⟨cl, hcl, hq⟩ := Option.bind_eq_some_iff.mp hcall
  obtain ⟨q', hq', ⟨⟩⟩ := Option.bind_eq_some_iff.mp hq
  have hrel := h.lookup fn
  rw [hcl] at hrel
  cases hfind : (moduleOf fns).find? fun p => host.addr p.1 = fn with
  | none => rw [hfind] at hrel; cases hrel
  | some p =>
      rw [hfind] at hrel
      obtain ⟨p', rfl, cf, hdecl, hmake⟩ : ∃ p', p = (.fn p'.1, p'.2) ∧ Implements P cfs cl p' := by
        cases hrel with
        | some hp => exact hp
      obtain ⟨c, C, htarget, hmap, hcode, hbody⟩ := hmake.body
      obtain ⟨f, vs, rfl, he⟩ := enters_of_enter hdecl hq'
      have hlink := linked_machine h.hosts htarget h.declares hmap cl args
      have hmem : cl ∈ P.clusters := List.mem_of_find?_eq_some hcl
      obtain ⟨fs, d₀, hc⟩ := exists_compiled hcode hlink (by rw [hdecl.cluster]; rfl)
        (hdecl.cluster ▸ h.unique cl hmem) he
      refine ⟨⟨C.body, args, startConfig C.body _⟩, ?_, .mk hc (hc.start he)⟩
      rw [callFn, hfind]
      show (p'.2.blocks.head?.map fun b => _) = _
      rw [hbody, codegenCluster_blocks hcode he.head]
      rfl

/-- The module follows the program: a step inside a cluster by the simulation of the cluster, and
a call by a call. -/
theorem simulates (h : Codes host P cfs fns) : Simulation.Simulates P.step
    (Frame.step host (moduleOf fns)) (ProgMatches host P) fun q => q.config.size where
  step := by
    intro q q₁ fr hm hstep
    cases hm with
    | @mk cl cf args c C d₀ fs q q' hc hm =>
        have hlift : ∀ a a', next ⟨host, args⟩ C.body a = some a' →
            Frame.step host (moduleOf fns) ⟨C.body, args, a⟩ = some ⟨C.body, args, a'⟩ :=
          fun a a' => Frame.step_next
        cases q with
        | run s ρ σ =>
            obtain ⟨q₂, hq₂, rfl⟩ := Option.map_eq_some_iff.mp hstep
            obtain ⟨q'', hm', hmove⟩ := hc.simulates.step hm hq₂
            refine ⟨_, .mk hc hm', ?_⟩
            rcases hmove with hplus | ⟨hstar, hlt⟩
            · exact .inl (hplus.lift hlift)
            · exact .inr ⟨hstar.lift hlift, hlt⟩
        | exit isTail fn as σ =>
            cases isTail with
            | false => cases hstep
            | true =>
                obtain ⟨fr, hcall, hm'⟩ := h.call hstep
                cases hm with
                | exit hl =>
                    refine ⟨fr, hm', .inl ⟨fr, ?_, .refl⟩⟩
                    rw [Frame.step_call hl.next hl.final, hl.mem, hl.trace]
                    exact hcall

end Codes

/-- The code that is generated for a compilation unit is code for its program, where the binders
of each fragment are distinct. -/
theorem codes_of_codegen {unit : CompUnit .cpp} {host : Host Sym} {P : Program} {c C : Context}
    {fns : List (LVar × Body)} (h : codegenCompUnit unit c = .ok (fns, C)) (hhost : Hosts host P)
    (htarget : c.target = P.target) (hclusters : P.clusters = unit.clusters)
    (hunique : ∀ cl ∈ unit.clusters, ∀ f ∈ cl.frags, f.UniqueBinds) :
    ∃ cfs, Codes host P cfs fns := by
  obtain ⟨cfs, hdecl, hmake⟩ := codegenCompUnit_ok h
  rw [htarget, ← hclusters] at hdecl
  rw [htarget] at hmake
  exact ⟨cfs, hhost, hclusters ▸ hunique, hdecl, forall₂_trans hdecl hmake⟩

/-! ### Two clusters -/

/-- A cluster that calls `countDown`, by its label. -/
def callDown : Cluster .cpp where
  attrs := ⟨0, false, false, false⟩
  frags := [
    { kind := .con .STD_FUN, lab := 3, params := [⟨30, .PTRt⟩, ⟨31, .TAGt⟩],
      body := .APPLY (.LABEL 1) [.VAR 30, .VAR 31] [.PTRt, .TAGt] }]

/-- A compilation unit of the two, with the caller as its entry. -/
def downUnit : CompUnit .cpp := ⟨[], callDown, [countDown]⟩

/-- The clusters are at their labels, and no byte is promised to stay the same. -/
def downProgram : Program where
  target := arm64Info
  sp := 0
  label _ := 0
  code lab := BitVec.ofInt 64 lab
  call _ _ mem := ([], mem)
  fixed _ := false
  clusters := downUnit.clusters

/-- So are the functions, on the host of `countDown`. -/
def downHost : Host Sym where
  __ := (countDownArgs 0).host
  addr
    | .fn lab => BitVec.ofInt 64 lab
    | _ => 0

/-- The number one, with the continuation `7`, after the five special registers of the target. -/
def downArgs : List (Option Word) := List.replicate 5 (some 0) ++ [some 7, some 1]

/-- The host is that of the program. -/
theorem hosts_down : Hosts downHost downProgram := ⟨rfl, rfl, rfl, rfl, fun _ => rfl, fun _ => rfl⟩

/-- The call of the entry, where it starts. -/
def downStart : Program.Config :=
  ⟨callDown, .run callDown.frags[0].body (callDown.frags[0].env [.ml 7, .ml 1]) zeroState⟩

/-- The continuation is called with the number zero. -/
def downExit : Cfg.Config :=
  .exit true 7 (List.replicate 5 (some 0) ++ [none, none, some 0]) zeroState

/-- The program gets from the one to the other. -/
theorem runs_down : downProgram.Runs downStart ⟨countDown, downExit⟩ :=
  .head rfl (.head rfl (.head rfl (.head rfl (.head rfl (.head rfl (.head rfl (.head rfl .refl)))))))

section

variable {unit : CompUnit .cpp} {host : Host Sym} {P : Program} {c C : Context}
  {fns : List (LVar × Body)} {fn : Word} {args : List (Option Word)} {σ : MState}
  {q₀ q : Program.Config}

/-- Every run of a program from a call of one of its clusters, through any number of
clusters, is followed by the module that `comp_unit::codegen` makes. -/
theorem codegenCompUnit_runs (h : codegenCompUnit unit c = .ok (fns, C)) (hhost : Hosts host P)
    (htarget : c.target = P.target) (hclusters : P.clusters = unit.clusters)
    (hunique : ∀ cl ∈ unit.clusters, ∀ f ∈ cl.frags, f.UniqueBinds)
    (hcall : P.callStep fn args σ = some q₀) (hrun : P.Runs q₀ q) :
    ∃ fr₀ fr, callFn host (moduleOf fns) fn args σ.mem σ.trace = some fr₀ ∧
      Simulation.Star (Frame.step host (moduleOf fns)) fr₀ fr ∧
      Agrees ⟨host, fr.args⟩ q.config fr.config := by
  obtain ⟨cfs, hcodes⟩ := codes_of_codegen h hhost htarget hclusters hunique
  obtain ⟨fr₀, hcall', hm₀⟩ := hcodes.call hcall
  obtain ⟨fr, hstar, hm⟩ := hcodes.simulates.star hrun hm₀
  refine ⟨fr₀, fr, hcall', hstar, ?_⟩
  cases hm with
  | mk _ hm => exact hm.agrees

/-- The module of the two clusters comes to the call of the continuation. -/
theorem codegenCompUnit_runs_down : ∃ fns C,
    codegenCompUnit downUnit (Context.create arm64Info) = .ok (fns, C) ∧
    ∃ fr₀ fr, callFn downHost (moduleOf fns) 3 downArgs zeroState.mem zeroState.trace = some fr₀ ∧
      Simulation.Star (Frame.step downHost (moduleOf fns)) fr₀ fr ∧
      Agrees ⟨downHost, fr.args⟩ downExit fr.config := by
  obtain ⟨fns, h⟩ := CodegenM.after_ok (x := codegenCompUnit downUnit)
    (c := Context.create arm64Info) (by decide +kernel)
  have hcall : downProgram.callStep 3 downArgs zeroState = some downStart := rfl
  exact ⟨fns, _, h, codegenCompUnit_runs h hosts_down rfl rfl (by decide) hcall runs_down⟩

/-- The module ends as the program does, and only then: if the program raises an
exception or calls an address outside, then the module comes to that call, however far
it got, and if the program runs forever, so does the module. -/
theorem codegenCompUnit_ends (h : codegenCompUnit unit c = .ok (fns, C)) (hhost : Hosts host P)
    (htarget : c.target = P.target) (hclusters : P.clusters = unit.clusters)
    (hunique : ∀ cl ∈ unit.clusters, ∀ f ∈ cl.frags, f.UniqueBinds)
    (hcall : P.callStep fn args σ = some q₀) :
    ∃ fr₀, callFn host (moduleOf fns) fn args σ.mem σ.trace = some fr₀ ∧
      (∀ cl isTail fn' args' σ', P.Runs q₀ ⟨cl, .exit isTail fn' args' σ'⟩ →
        (isTail = true → P.clusterAt fn' = none) →
        ∃ fr, Leaves ⟨host, fr.args⟩ isTail fn' args' σ' fr.config ∧ ∀ fr₁,
          Simulation.Star (Frame.step host (moduleOf fns)) fr₀ fr₁ →
          Simulation.Star (Frame.step host (moduleOf fns)) fr₁ fr) ∧
      (Simulation.Forever P.step q₀ →
        Simulation.Forever (Frame.step host (moduleOf fns)) fr₀) := by
  obtain ⟨cfs, hcodes⟩ := codes_of_codegen h hhost htarget hclusters hunique
  obtain ⟨fr₀, hcall', hm₀⟩ := hcodes.call hcall
  refine ⟨fr₀, hcall', fun cl isTail fn' args' σ' hrun hout => ?_, fun hforever =>
    hcodes.simulates.forever hforever hm₀⟩
  have hstuck : ∀ fr, ProgMatches host P ⟨cl, .exit isTail fn' args' σ'⟩ fr →
      fr.step host (moduleOf fns) = none := by
    rintro - ⟨hc, ⟨⟩ | hl⟩
    cases isTail with
    | false => exact Frame.step_exit hl.next hl.final
    | true =>
        rw [Frame.step_call hl.next hl.final]
        exact hcodes.call_none (hout rfl) _ _ _
  obtain ⟨fr, hm, honly⟩ := hcodes.simulates.only hrun hm₀ hstuck
  cases hm with
  | mk hc hm =>
      cases hm with
      | exit hl => exact ⟨_, hl, honly⟩

/-- However far the module of the two clusters got, it comes to that call. -/
theorem codegenCompUnit_ends_down : ∃ fns C,
    codegenCompUnit downUnit (Context.create arm64Info) = .ok (fns, C) ∧
    ∃ fr₀ fr, callFn downHost (moduleOf fns) 3 downArgs zeroState.mem zeroState.trace = some fr₀ ∧
      Leaves ⟨downHost, fr.args⟩ true 7 (List.replicate 5 (some 0) ++ [none, none, some 0])
        zeroState fr.config ∧
      ∀ fr₁, Simulation.Star (Frame.step downHost (moduleOf fns)) fr₀ fr₁ →
        Simulation.Star (Frame.step downHost (moduleOf fns)) fr₁ fr := by
  obtain ⟨fns, h⟩ := CodegenM.after_ok (x := codegenCompUnit downUnit)
    (c := Context.create arm64Info) (by decide +kernel)
  have hcall : downProgram.callStep 3 downArgs zeroState = some downStart := rfl
  obtain ⟨fr₀, hcall', hends, -⟩ :=
    codegenCompUnit_ends h hosts_down rfl rfl (by decide) hcall
  obtain ⟨fr, hl, honly⟩ := hends _ _ _ _ _ runs_down fun _ => rfl
  exact ⟨fns, _, h, fr₀, fr, hcall', hl, honly⟩

end

end SmlnjCfg.Codegen
