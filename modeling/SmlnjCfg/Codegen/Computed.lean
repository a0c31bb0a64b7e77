import SmlnjCfg.Codegen.ClusterRun
import SmlnjCfg.Codegen.Exec
import SmlnjCfg.Codegen.FragEntry

/-!
# `SmlnjCfg.Codegen.Computed`: values are computed before they are used

The values that a context holds, for variables and registers, are the results of instructions
that were generated already, or no results of instructions. So the code that is generated next
can use them: an instruction that has a number has been executed when the code runs. A statement
binds what its own instructions compute or what was there before, and the start of a fragment
binds phi nodes, which got their numbers when the cluster was set up.

* `Computed`: a context that holds such values only.
* `Computed.head`, `computed_fragStart`: statements and the starts of fragments keep this.
* `ClusterRun.computed`: the contexts of a whole run.
-/

set_option autoImplicit false

namespace SmlnjCfg.Codegen

open Cfg Gen

variable {α β : Type}

/-- Code that only computes, executed: it writes nothing, and of the context it changes no more
than the code, the numbers and the intrinsics that were declared. So what is known of variables
and registers before holds afterwards. -/
theorem Gen.Plain.quiet {act : IR.Activation Sym} {x : Gen α} {c c' : Context} {s s' : IR.State}
    {a : α} (hx : x.Plain) (h : x.exec act c s = some (a, c', s')) : Quiet c c' s s' := by
  induction x generalizing c s with
  | ret b =>
      simp only [exec, Option.some.injEq, Prod.mk.injEq] at h
      obtain ⟨-, rfl, rfl⟩ := h
      exact .refl c s
  | fail msg => cases h
  | read k ih => exact ih c (hx c) h
  | setReg r v k ih => exact hx.elim
  | use key k ih =>
      have hrest : k.exec act (c.use key) s = some (a, c', s') := h
      exact (Quiet.use c s key).trans (ih hx hrest)
  | emit o k ih =>
      rw [exec] at h
      split at h
      · obtain ⟨s₁, hs₁, h⟩ := Option.bind_eq_some_iff.mp h
        obtain ⟨hmem, htrace⟩ := IR.Op.step_quiet hs₁ hx.1
        have hfirst : Quiet c (c.emitOp o) s s₁ :=
          ⟨⟨Nat.le_succ _, fun id hid => IR.Op.step_regs hs₁ (Nat.ne_of_lt hid)⟩, rfl, hmem,
            htrace⟩
        exact hfirst.trans (ih _ (hx.2 _) h)
      · cases h

/-- The values of variables and registers are computed already: none is the result of an
instruction whose number is not taken yet. For arguments and constants there is nothing to
show. -/
structure Computed (c : Context) : Prop where
  vMap : ∀ lv v, c.vMap lv = some v → v.Below c.nextId
  regs : ∀ r v, c.regState.val r = some v → v.Below c.nextId
  basePtr : ∀ v, c.regState.basePtr = some v → v.Below c.nextId

namespace Computed

/-- New instructions do no harm: they only take more numbers, and the values at hand stay below
the old ones. -/
theorem of_env {c c' : Context} (h : Computed c) (hle : c.nextId ≤ c'.nextId)
    (hv : c'.vMap = c.vMap) (hr : c'.regState = c.regState) : Computed c' where
  vMap lv v hlv := (h.vMap lv v (hv ▸ hlv)).mono hle
  regs r v hrv := (h.regs r v (hr ▸ hrv)).mono hle
  basePtr v hbv := (h.basePtr v (hr ▸ hbv)).mono hle

/-- A register may be set to a value that is computed, or be emptied. -/
theorem setRegs {c : Context} (h : Computed c) {r : CMRegId} {o : Option Val}
    (ho : ∀ v, o = some v → v.Below c.nextId) :
    Computed { c with regState := c.regState.set r o } where
  vMap := h.vMap
  regs r' v hrv := by
    by_cases hr : r' = r
    · subst hr
      rw [CMRegState.set_val_self] at hrv
      exact ho v hrv
    · rw [CMRegState.set_val_of_ne _ _ hr] at hrv
      exact h.regs r' v hrv
  basePtr := h.basePtr

/-- A variable may be bound to a value that is computed. A variable that has a binding keeps it,
so the new value may also be ignored. -/
theorem insertVal {c : Context} (h : Computed c) {lv : LVar} {v : Val} (hv : v.Below c.nextId) :
    Computed { c with vMap := fun lv' =>
      if lv' = lv ∧ c.vMap lv = none then some v else c.vMap lv' } where
  vMap lv' v' hlv := by
    simp only at hlv
    split at hlv
    · obtain rfl : v = v' := Option.some.inj hlv
      exact hv
    · exact h.vMap lv' v' hlv
  regs := h.regs
  basePtr := h.basePtr

end Computed

/-! ### What keeps values computed -/

/-- What a head is given is computed: it was made by its own instructions or was in the
context. -/
theorem Computed.given {c : Context} (hc : Computed c) {v : Val} (h : Given c v) :
    v.Below c.nextId := by
  rcases h with ⟨lv, hlv⟩ | ⟨r, hr⟩
  · exact hc.vMap lv v hlv
  · exact hc.regs r v hr

/-- The values of arguments are computed, by induction on the expressions, each of which is a
value at hand or an instruction that was just appended. -/
theorem Computed.args {es : List (Exp .cpp)} {vs : List Val} {c c' : Context} (hc : Computed c)
    (h : (Exp.codegenArgs es).run c = .ok (vs, c')) : ∀ v ∈ vs, v.Below c'.nextId := by
  intro v hv
  -- the arguments of any statement will do
  obtain ⟨-, hle, hhand⟩ :=
    Exp.yields_args (s := .GOTO 0 es) es c vs c' .refl (Nat.le_refl _) h
  exact (hhand v hv).below fun w hw => (hc.given hw).mono hle

/-- A step of a head keeps values computed, since it uses what is at hand. The rights of the head
say where the value of a new binding may come from. -/
theorem Computed.step {s : Stm .cpp} {c₀ c c' : Context} (h₀ : Computed c₀)
    (hle : c₀.nextId ≤ c.nextId) (hc : Computed c) (h : Step (Stm.rights s c₀) c c') :
    Computed c' := by
  have hgiven : ∀ v, Given c₀ v → v.Below c.nextId := fun v hv => (h₀.given hv).mono hle
  cases h with
  | setReg hset =>
      obtain ⟨-, w, rfl, -, hhand⟩ := hset
      exact hc.setRegs fun v hv => Option.some.inj hv ▸ hhand.below hgiven
  | setBase _ hbase => exact hbase.elim
  | bind _ hhand => exact hc.insertVal (hhand.below hgiven)
  | emit o => exact hc.of_env (Nat.le_succ _) rfl rfl
  | use _ | term _ | exitCall _ _ _ | incoming _ _ _ | deadBlock =>
      exact hc.of_env (Nat.le_refl _) rfl rfl

/-- The head of a statement keeps the values of the context computed. A test for overflow adds
nothing to this, since the result that is bound after it was computed before it. -/
theorem Computed.head {frag : Nat} {s : Stm .cpp} {path : List Nat} {c c' : Context}
    (hc : Computed c) (h : s.head frag path c = .ok ((), c')) : Computed c' := by
  refine (Stm.head_preorder (P := fun c₁ c₂ => c₁.nextId ≤ c₂.nextId ∧
    (c.nextId ≤ c₁.nextId → Computed c₁ → Computed c₂)) h ?_ ?_ ?_ ?_).2 (Nat.le_refl _) hc
  · exact fun c₁ => ⟨Nat.le_refl _, fun _ hc₁ => hc₁⟩
  · rintro c₁ c₂ c₃ ⟨hle, h₁₂⟩ ⟨hle', h₂₃⟩
    exact ⟨Nat.le_trans hle hle', fun hlo hc₁ => h₂₃ (Nat.le_trans hlo hle) (h₁₂ hlo hc₁)⟩
  · exact fun hstep => ⟨hstep.nextId_le, fun hlo hc₁ => hc.step hlo hc₁ hstep⟩
  · intro obit res c₁ c₂ hbr
    obtain ⟨-, hle, hvMap, hregs⟩ := overflowBranch_env hbr
    exact ⟨hle, fun _ hc₁ => hc₁.of_env hle hvMap hregs⟩

/-- The start of a fragment sets the registers to arguments or to its phi nodes, and binds its
parameters to such values too. An argument has no number, and a phi node got its own when the
cluster was set up, before any code. -/
theorem computed_fragStart {f : FragBB} {i : Nat} {c c' : Context}
    (h : 0 < i → Computed c) (hphis : ∀ p ∈ f.phiNodes, p.1 < c.nextId)
    (hstart : fragStart i f c = .ok ((), c')) : Computed c' := by
  have hentry := fragEntry_ok hstart
  have hsteps := fragStart_steps hstart
  have hle : c.nextId ≤ c'.nextId := hsteps.nextId_le
  have hbelow : ∀ {v : Val}, f.EntryVal c c'.nextId v → v.Below c'.nextId := by
    refine fun hv => hv.below ?_
    rintro v ⟨p, hp, rfl⟩
    exact Nat.lt_of_lt_of_le (hphis p hp) hle
  refine ⟨fun lv v hlv => ?_, fun r v hr => ?_, fun v hv => ?_⟩
  · rcases hsteps.vMap hlv with hold | hhand
    · cases hold
    · exact hbelow hhand
  · cases hplace : c.target.isMachineReg r with
    | true =>
        -- A machine register is an argument in the entry and a phi node elsewhere.
        rcases hentry.machine r hplace with
          ⟨-, k, fn, ty, -, -, -, hval⟩ | ⟨-, -, k, p, -, hp, hval⟩
        · rw [hval] at hr
          cases hr
          trivial
        · rw [hval] at hr
          cases hr
          exact hbelow (.given ⟨p, List.mem_of_getElem? hp, rfl⟩)
    | false =>
        -- The others are emptied by the entry and left alone by the other fragments.
        rcases hentry.stack r hplace with ⟨-, hval⟩ | ⟨hi, hval⟩
        · rw [hval] at hr
          cases hr
        · exact ((h hi).regs r v (hval ▸ hr)).mono hle
  · rcases hentry.basePtr v hv with hhand | ⟨hi, hold⟩
    · exact hbelow hhand
    · exact ((h hi).basePtr v hold).mono hle

/-! ### Whole runs -/

/-- Saved registers are computed: the register state that the arms of a branch are each started
with. -/
def SavedComputed (saved : CMRegState) (c : Context) : Prop :=
  ∀ r v, saved.val r = some v → v.Below c.nextId

/-- The phi nodes of fragments have numbers, since `frag::init` makes them before code
generation. -/
def NodesComputed (fs : List FragBB) (c : Context) : Prop :=
  ∀ f ∈ fs, ∀ p ∈ f.phiNodes, p.1 < c.nextId

/-- The values that are at hand are computed, at everything that code generation comes to. The
invariant asks nothing of statements; the two further predicates are about the registers that a
branch saves and the phi nodes of fragments that are still to come. -/
theorem runInv_computed : RunInv (fun _ _ => True) Computed SavedComputed NodesComputed where
  head h _ hc := hc.head h
  saved hc := hc.regs
  arm hc hsaved := ⟨hc.vMap, hsaved, hc.basePtr⟩
  later hg hsaved r v hv := (hsaved r v hv).mono hg.nextId_le
  frag _ hc hnodes hstart := computed_fragStart hc (hnodes _ List.mem_cons_self) hstart
  rest hg hnodes f hf p hp :=
    Nat.lt_of_lt_of_le (hnodes f (List.mem_cons_of_mem _ hf) p hp) hg.nextId_le

/-- After the initialization of a cluster, the values that are at hand are computed, whether or
not code generation succeeds in the end. -/
theorem InitsFrags.computed {cf : ClusterFn} {c d d' : Context} {fs : List FragBB} {frag : Nat}
    {s : Stm .cpp} {path : List Nat}
    (h : InitsFrags cf.cluster.frags 0 fs (clusterStart cf c) d)
    (hv : Visits (.frags fs 0, d) (.stm frag s path, d')) : Computed d' :=
  runInv_computed.visits hv (fun _ _ _ _ _ => trivial)
    ⟨fun h => absurd h (Nat.lt_irrefl 0), h.nodes⟩

/-- In a run of `cluster::codegen`, the values that are at hand are computed, at every statement
that it comes to. -/
theorem ClusterRun.computed {cf : ClusterFn} {c C d d' : Context} {fs : List FragBB} {frag : Nat}
    {s : Stm .cpp} {path : List Nat} (h : ClusterRun cf c C fs d)
    (hv : Visits (.frags fs 0, d) (.stm frag s path, d')) : Computed d' :=
  h.inits.computed hv

end SmlnjCfg.Codegen
