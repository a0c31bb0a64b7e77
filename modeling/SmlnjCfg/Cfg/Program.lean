import SmlnjCfg.Cfg.Machine

/-!
# `SmlnjCfg.Cfg.Program`: programs of several clusters

A compilation unit is a list of clusters. A call of the address of a cluster goes
on at its entry, whatever cluster it comes from, and a call of any other address
leaves the program.

* `Program.machine`: the machine that a cluster runs on.
* `Program.enter`: the registers, the unused arguments and the parameters of an entry.
* `Program.step`: one step of a program.
-/

set_option autoImplicit false

namespace SmlnjCfg.Cfg

/-- The clusters of a compilation unit, in the order in which the generator compiles them. -/
def CompUnit.clusters (unit : CompUnit .cpp) : List (Cluster .cpp) := unit.entry :: unit.fns

/-- Clusters, and what they run on. Addresses are given from outside, since the linker places the
code: `label` is what an expression `LABEL` evaluates to, and `code` what a call of it reaches. -/
structure Program where
  target : TargetInfo
  sp : Word
  /-- The value of a label. -/
  label : LVar → Word
  /-- The address that a cluster is called at. -/
  code : LVar → Word
  call : Word → List Word → Mem → List Word × Mem
  /-- The bytes that are promised to stay the same. -/
  fixed : Nat → Bool
  clusters : List (Cluster .cpp)

namespace Program

/-- The label of a cluster is that of its first fragment, the only one that other clusters can
name. -/
def labelOf (cl : Cluster .cpp) : Option LVar := cl.frags.head?.map (·.lab)

variable (P : Program)

/-- The entry of the first cluster with a label. A later cluster with the same label is never
found, like in the map that the generator keeps. -/
def entry (lab : LVar) : Option (Frag .cpp) :=
  (P.clusters.find? fun cl => labelOf cl = some lab).bind (·.frags.head?)

/-- The machine that a cluster runs on: its own fragments, and the entries of all clusters. A
`GOTO` stays among the former, and an `APPLY` of a label finds the kind of its callee among the
latter. -/
def machine (cl : Cluster .cpp) : Machine where
  target := P.target
  sp := P.sp
  label := P.label
  code := P.code
  entry := P.entry
  frags := cl.frags
  call := P.call
  fixed := P.fixed

/-- The first cluster with its code at an address. Two clusters at one address are not ruled out
here; the theorems that need it say so. -/
def clusterAt (fn : Word) : Option (Cluster .cpp) :=
  P.clusters.find? fun cl => (labelOf cl).map P.code = some fn

/-- The entry of a cluster with arguments: the special registers, the unused arguments and the
words of the parameters. Everything is checked, so that a call with the wrong number of arguments,
with other registers than the machine has, or with a word that a parameter does not accept is no
step at all. -/
def enter (cl : Cluster .cpp) (args : List (Option Word)) (σ : MState) : Option Config := do
  let f ← cl.frags.head?
  match f.kind with
  | .con kind =>
      let n := P.target.numMachineRegs
      let ws ← (args.drop (n + kind.unused)).mapM id
      if kind ≠ .INTERNAL ∧ args.take n = ((P.machine cl).machineWords σ).map some ∧
          args.length = n + kind.unused + f.params.length ∧ f.accepts (ws.map .ml) then
        some (.run f.body (f.env (ws.map .ml)) σ)
      else none
  | .undeclared _ => none

/-- A running program: the cluster it is in, and where in it. -/
structure Config where
  cluster : Cluster .cpp
  config : Cfg.Config

/-- Call an address: the cluster at it is entered with the arguments of the call. -/
def callStep (fn : Word) (args : List (Option Word)) (σ : MState) : Option Config := do
  let cl ← P.clusterAt fn
  let q ← P.enter cl args σ
  some ⟨cl, q⟩

/-- One step of a program: a step of the running cluster, or the tail call that ended it. A call
that is not a tail call leaves the program. -/
def step : Config → Option Config
  | ⟨cl, .run s ρ σ⟩ => (s.step (P.machine cl) ρ σ).map (⟨cl, ·⟩)
  | ⟨_, .exit true fn args σ⟩ => P.callStep fn args σ
  | ⟨_, .exit false _ _ _⟩ => none

/-- Any number of steps, none included. -/
def Runs (P : Program) : Config → Config → Prop :=
  Relation.ReflTransGen fun q q' => P.step q = some q'

end Program

end SmlnjCfg.Cfg
