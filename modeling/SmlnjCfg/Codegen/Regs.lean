import SmlnjCfg.Codegen.Computed

/-!
# `SmlnjCfg.Codegen.Regs`: which special registers have a value

A special register that lives in a machine register has a value in the context at every point,
and one that lives on the stack has none. The start of a fragment brings this about, a statement
gives a new value only to a register that has one, and `restoreSMLRegs` between two arms puts
back values that were saved at such a point.

* `Stm.head_keepsPlaces`: what a statement leaves as it was.
* `Visits.placed`: which registers have a value, over a whole run.
* `Visited`: what holds when code generation comes to a statement.
-/

set_option autoImplicit false

namespace SmlnjCfg.Codegen

open Cfg Gen

/-! ### Which registers have a value -/

/-- From `c` to `c'`, the registers that have a value keep one, and the others get none. The base
pointer stays the one of the fragment. -/
structure KeepsPlaces (c c' : Context) : Prop where
  target : c'.target = c.target
  basePtr : c'.regState.basePtr = c.regState.basePtr
  isSome_val : ∀ r, (c'.regState.val r).isSome = (c.regState.val r).isSome

theorem KeepsPlaces.trans {c c₁ c' : Context} (h : KeepsPlaces c c₁) (h' : KeepsPlaces c₁ c') :
    KeepsPlaces c c' :=
  ⟨h'.target.trans h.target, h'.basePtr.trans h.basePtr,
    fun r => (h'.isSome_val r).trans (h.isSome_val r)⟩

/-- Only a register that has a value gets another one. -/
theorem Step.keepsPlaces {s : Stm .cpp} {c₀ c c' : Context} (h : Step (Stm.rights s c₀) c c') :
    KeepsPlaces c c' := by
  cases h with
  | @setReg r o hset =>
      obtain ⟨hsome, v, rfl, -, -⟩ := hset
      refine ⟨rfl, rfl, fun r' => ?_⟩
      by_cases hr : r' = r
      · rw [hr, CMRegState.set_val_self, hsome]
        rfl
      · rw [CMRegState.set_val_of_ne _ _ hr]
  | setBase _ hbase => exact hbase.elim
  | _ => exact ⟨rfl, rfl, fun _ => rfl⟩

theorem KeepsPlaces.overflowBranch {obit res v : Val} {c c' : Context}
    (h : overflowBranch obit res c = .ok (v, c')) : KeepsPlaces c c' := by
  obtain ⟨htarget, -, -, hregs⟩ := overflowBranch_env h
  exact ⟨htarget, by rw [hregs], fun r => by rw [hregs]⟩

/-- The head of a statement keeps the places of the registers. -/
theorem Stm.head_keepsPlaces {frag : Nat} {s : Stm .cpp} {path : List Nat} {c c' : Context}
    (h : s.head frag path c = .ok ((), c')) : KeepsPlaces c c' :=
  Stm.head_preorder h (fun _ => ⟨rfl, rfl, fun _ => rfl⟩) KeepsPlaces.trans Step.keepsPlaces
    KeepsPlaces.overflowBranch

/-- Exactly the registers that live in machine registers have a value. -/
def RegsPlaced (c : Context) : Prop := ∀ r, (c.regState.val r).isSome = c.target.isMachineReg r

/-- Exactly the registers that live in machine registers have a saved value. -/
def SavedPlaced (saved : CMRegState) (c : Context) : Prop :=
  ∀ r, (saved.val r).isSome = c.target.isMachineReg r

theorem runInv_placed : RunInv (fun _ _ => True) RegsPlaced SavedPlaced (fun _ _ => True) where
  head h _ hc r := by
    have hkeep := Stm.head_keepsPlaces h
    rw [hkeep.isSome_val, hkeep.target, hc]
  saved hc := hc
  arm _ hsaved := hsaved
  later hg hsaved r := by rw [hg.target, hsaved]
  frag _ hc _ hstart r := by
    have he := fragEntry_ok hstart
    rw [he.target]
    cases hr : Context.target _ |>.isMachineReg r with
    | true =>
        rcases he.machine r hr with ⟨-, k, fn, ty, -, -, -, hval⟩ | ⟨-, -, k, p, -, -, hval⟩
        · rw [hval]
          rfl
        · rw [hval]
          rfl
    | false =>
        rcases he.stack r hr with ⟨-, hval⟩ | ⟨hi, hval⟩
        · rw [hval]
          rfl
        · rw [hval, hc hi, hr]
  rest _ _ := trivial

/-- At every statement that code generation comes to, exactly the registers that
live in machine registers have a value. -/
theorem Visits.placed {d d' : Context} {fs : List FragBB} {frag : Nat} {s : Stm .cpp}
    {path : List Nat} (h : Visits (.frags fs 0, d) (.stm frag s path, d')) : RegsPlaced d' :=
  runInv_placed.visits h (fun _ _ _ _ _ => trivial)
    ⟨fun h => absurd h (Nat.lt_irrefl 0), trivial⟩

/-! ### A statement in a run -/

/-- Code generation comes to the statement `s` at `d`, in a run that ends at `C`. -/
structure Visited (C : Context) (frag : Nat) (s : Stm .cpp) (path : List Nat) (d : Context) :
    Prop where
  ready : Ready (.stm frag s path) d
  overflowOk : OverflowOk (.stm frag s path) d
  computed : Computed d
  placed : RegsPlaced d
  emits : ∃ C', Emits (.stm frag s path) d C'
  grows : ∀ code c, Visits (.stm frag s path, d) (code, c) →
    Grows (fun b => code.cur c = some b ∨ Unused c b) c C
  overflow : ∀ code c, Visits (.stm frag s path, d) (code, c) →
    ∀ bb, c.overflowBB = some bb → OverflowAt C bb

theorem ClusterRun.visited {cf : ClusterFn} {c C d₀ d : Context} {fs : List FragBB} {frag : Nat}
    {s : Stm .cpp} {path : List Nat} (h : ClusterRun cf c C fs d₀)
    (hv : Visits (.frags fs 0, d₀) (.stm frag s path, d)) : Visited C frag s path d where
  ready := hv.ready h.ready
  overflowOk := hv.overflowOk h.ready h.overflowOk
  computed := h.computed hv
  placed := hv.placed
  emits := hv.emits h.ready h.emits
  grows _ _ hv' := (hv.trans hv').grows h.ready h.emits
  overflow _ _ hv' _ hbb := (hv.trans hv').overflowAt h.ready h.overflowOk h.emits hbb

namespace Visited

variable {C d : Context} {frag : Nat} {s k : Stm .cpp} {path : List Nat}

/-- The head of the statement has been generated, and code generation went on. -/
theorem next (h : Visited C frag s path d) (hk : s.kids = .next k) :
    ∃ c, s.head frag path d = .ok ((), c) ∧ Visited C frag k path c := by
  obtain ⟨C', he⟩ := h.emits
  cases he with
  | stop hk' _ => rw [hk] at hk'; cases hk'
  | next hk' hhead hnext =>
      rw [hk] at hk'
      cases hk'
      have hcall : Calls (.stm frag s path, d) (.stm frag k path, _) := .next hk hhead
      have hpre : ∀ {q}, Visits (.stm frag k path, _) q → Visits (.stm frag s path, d) q :=
        fun hv => .head hcall hv
      refine ⟨_, hhead, hcall.ready h.ready, hcall.overflowOk h.ready h.overflowOk, ?_, ?_,
        ⟨C', hnext⟩, fun code c hv => h.grows code c (hpre hv),
        fun code c hv => h.overflow code c (hpre hv)⟩
      · exact runInv_computed.head hhead trivial h.computed
      · exact runInv_placed.head hhead trivial h.placed
  | arms hk' _ _ => rw [hk] at hk'; cases hk'

/-- The current block is not the overflow block. -/
theorem ne_overflow (h : Visited C frag s path d) {bb : BBId} (hbb : OverflowAt C bb) :
    bb ≠ d.curBB := by
  rintro rfl
  rcases (h.grows _ d .refl).made _ hbb.made with hmade | ⟨m, hm, hnew⟩
  · exact h.overflowOk.cur _ rfl hmade
  · exact absurd (h.ready.old _ rfl m hnew) (Nat.not_lt.mpr hm)

end Visited

end SmlnjCfg.Codegen
