import SmlnjCfg.Lib.Bits
import SmlnjCfg.Codegen.Branch
import SmlnjCfg.Codegen.RegVals

/-!
# `SmlnjCfg.Codegen.Trap`: trapping integer arithmetic

The code of an `ARITH` in its place in a function: the operation, the test for
overflow, the block that execution goes on in, and the overflow block.

* `Context.config`: execution at the point where code generation is.
* `reaches_exec`, `reaches_next`, `reaches_overflow`: straight-line code, and the
  two ways out of a test for overflow.
* `Gen.Total`, `overflowBranch_runs`: code that is generated whatever the context is, and a
  test for overflow, which needs pointers in the registers.
* `Arith.exact_iff`: the result is exact, or control goes to the overflow block,
  but for a division of the least number by `-1`.
-/

set_option autoImplicit false

namespace SmlnjCfg.Codegen

open Cfg Gen IR

variable {α : Type}

/-! ### Execution at a point of code generation -/

/-- What is added to the current block of `d` until the end of the run. -/
def Context.rest (d C : Context) : List (Inst BBId Sym) :=
  (C.body.block d.curBB).drop (d.body.block d.curBB).length

/-- Execution, at the point of the function where code generation is at `d`. -/
def Context.config (d C : Context) (s : State) : Config BBId Sym := ⟨d.curBB, d.rest C, s⟩

theorem Context.block_eq_append {d C : Context}
    (h : d.body.block d.curBB <+: C.body.block d.curBB) :
    C.body.block d.curBB = d.body.block d.curBB ++ d.rest C := by
  obtain ⟨t, ht⟩ := h
  rw [Context.rest, ← ht, List.drop_left]

theorem Context.rest_eq {d C : Context} {is : List (Inst BBId Sym)}
    (h : C.body.block d.curBB = d.body.block d.curBB ++ is) : d.rest C = is := by
  rw [Context.rest, h, List.drop_left]

/-- Instructions that are appended to the current block. -/
theorem Ext.block_eq {c c' : Context} {is : List (Nat × Op Sym)} (h : Ext c c' is) :
    c'.body.block c'.curBB = c.body.block c.curBB ++ is.map fun p => .op p.1 p.2 := by
  have hmap : ∀ js : List (Nat × Op Sym),
      (js.map fun p => (c.curBB, (Inst.op p.1 p.2 : Inst BBId Sym))).filterMap
        (fun p => if p.1 = c.curBB then some p.2 else none) = js.map fun p => .op p.1 p.2 := by
    intro js
    rw [List.filterMap_map]
    simp
  rw [h.frame]
  simp only [Body.block, List.filterMap_append, hmap]

/-- Straight-line code that does not store is executed. -/
theorem reaches_exec {act : Activation Sym} {x : Gen α} {d d' C : Context} {s s' : State} {a : α}
    (h : x.exec act d s = some (a, d', s')) (htrace : s'.trace = s.trace)
    (hC : d'.body.block d'.curBB <+: C.body.block d'.curBB) :
    Reaches act C.body (d.config C s) (d'.config C s') := by
  obtain ⟨hrun, is, hext, -, hsteps⟩ := exec_eq_some.mp h
  have hcur := curBB_of_run hrun
  have hrest : d.rest C = is.map (fun p => .op p.1 p.2) ++ d'.rest C := by
    apply Context.rest_eq
    rw [← List.append_assoc, ← hext.block_eq, ← Context.block_eq_append hC, hcur]
  have hreach : Reaches act C.body ⟨d.curBB, is.map (fun p => .op p.1 p.2) ++ d'.rest C, s⟩
      ⟨d.curBB, d'.rest C, s'⟩ :=
    reaches_steps hsteps (keeps_drop_of_eq htrace)
  rw [Context.config, Context.config, hrest, hcur]
  exact hreach

/-! ### Code that is always generated -/

/-- No check of `x` can fail, whatever the context is. -/
def Gen.Total (x : Gen α) : Prop := ∀ c, ∃ a c', x.run c = .ok (a, c')

namespace Gen.Total

variable {β : Type}

theorem pure (a : α) : (Pure.pure a : Gen α).Total := fun c => ⟨a, c, rfl⟩

theorem bind {x : Gen α} {f : α → Gen β} (hx : x.Total) (hf : ∀ a, (f a).Total) :
    (x >>= f).Total := by
  intro c
  obtain ⟨a, c₁, h₁⟩ := hx c
  obtain ⟨b, c', h₂⟩ := hf a c₁
  exact ⟨b, c', run_bind_ok.mpr ⟨a, c₁, h₁, h₂⟩⟩

theorem inst (o : Op Sym) (ty : IR.Ty) : (Gen.inst o ty).Total := fun c => ⟨_, _, run_inst o ty c⟩

theorem createCast (op : CastOp) (v : Val) (ty : IR.Ty) : (Codegen.createCast op v ty).Total := by
  unfold Codegen.createCast
  split
  · exact pure _
  · exact inst _ _

theorem asInt (v : Val) : (Codegen.asInt v).Total := by
  unfold Codegen.asInt
  split
  · exact createCast _ _ _
  · exact pure _

theorem createBin (op : BinOp) (a b : Val) : (Codegen.createBin op a b).Total :=
  bind (asInt _) fun _ => bind (asInt _) fun _ => inst _ _

theorem loadFromStack (off : Int) : (Codegen.loadFromStack off).Total :=
  bind (bind (inst _ _) fun _ => bind (createBin _ _ _) fun _ => createCast _ _ _) fun _ =>
    inst _ _

end Gen.Total

/-- As `Gen.Total`, for code generation that may end blocks. -/
def CodegenM.Total (x : CodegenM α) : Prop := ∀ c, ∃ a c', x c = .ok (a, c')

namespace CodegenM.Total

variable {β : Type}

theorem pure (a : α) : (Pure.pure a : CodegenM α).Total := fun c => ⟨a, c, rfl⟩

theorem bind {x : CodegenM α} {f : α → CodegenM β} (hx : x.Total) (hf : ∀ a, (f a).Total) :
    (x >>= f).Total := by
  intro c
  obtain ⟨a, c₁, h₁⟩ := hx c
  obtain ⟨b, c', h₂⟩ := hf a c₁
  exact ⟨b, c', CodegenM.bind_ok.mpr ⟨a, c₁, h₁, h₂⟩⟩

theorem get : (MonadState.get : CodegenM Context).Total := fun c => ⟨c, c, rfl⟩

theorem modify (f : Context → Context) : (modify f : CodegenM Unit).Total := fun c => ⟨(), f c, rfl⟩

theorem newBB : Codegen.newBB.Total := fun _ => ⟨_, _, rfl⟩

theorem createPHIs (tys : List IR.Ty) : (Codegen.createPHIs tys).Total := fun c =>
  ⟨_, _, createPHIs_ok tys c⟩

/-- The overflow block can be made at any point. -/
theorem newOverflowBB : Codegen.newOverflowBB.Total := by
  refine bind (bind get fun _ => pure _) fun srcBB => bind get fun c => bind newBB fun bb => ?_
  refine bind (modify _) fun _ => bind (createPHIs _) fun phis => bind (modify _) fun _ => ?_
  refine bind (Gen.Total.loadFromStack _) fun raiseFn => bind (Gen.Total.createCast _ _ _) ?_
  exact fun fn => bind (modify _) fun _ => bind (modify _) fun _ => bind (modify _) fun _ => pure _

theorem theOverflowBB : Codegen.theOverflowBB.Total := by
  refine bind get fun c => ?_
  split
  · exact pure _
  · exact newOverflowBB

end CodegenM.Total

/-- A test for overflow is generated wherever the machine registers have pointers as their
values, which is what `addIncoming` insists on. -/
theorem overflowBranch_runs (obit res : Val) {c : Context}
    (h : ∀ r ∈ c.target.machineRegs, ∃ v, c.regState.val r = some v ∧ v.getType = ptrTy) :
    ∃ c', overflowBranch obit res c = .ok (res, c') := by
  let c₀ : Context := { c with
    nextBB := c.nextBB + 1
    body := { c.body with blocks := c.body.blocks ++ [.new c.nextBB] } }
  obtain ⟨bb, c₁, h₁⟩ := CodegenM.Total.theOverflowBB c₀
  obtain ⟨hg, -, hregs, -⟩ := theOverflowBB_grows h₁
  have htarget : c₁.target = c.target := hg.target
  have hregs' : c₁.regState = c.regState := hregs
  have hvals : ∀ r ∈ c₁.target.machineRegs,
      ∃ v, c₁.regState.val r = some v ∧ v.getType = ptrTy := by
    rw [htarget, hregs']
    exact h
  obtain ⟨c₂, h₂⟩ := addOverflowIncoming_runs c.curBB c₁.overflowPhiNodes c₁ hvals
  have hget : getOverflowBB c₀ = .ok (bb, c₂) := by
    refine CodegenM.bind_ok.mpr ⟨c.curBB, c₀, rfl, CodegenM.bind_ok.mpr ⟨bb, c₁, h₁, ?_⟩⟩
    exact CodegenM.bind_ok.mpr ⟨c₁, c₁, rfl, CodegenM.bind_ok.mpr ⟨(), c₂, h₂, rfl⟩⟩
  have hend : ∃ c', (createTerm (.condBr obit bb (.new c.nextBB) (some 1)) >>= fun _ =>
      setInsertPoint (.new c.nextBB) >>= fun _ => pure res) c₂ = .ok (res, c') := ⟨_, rfl⟩
  obtain ⟨c', hend⟩ := hend
  refine ⟨c', CodegenM.bind_ok.mpr ⟨.new c.nextBB, c₀, rfl, ?_⟩⟩
  exact CodegenM.bind_ok.mpr ⟨bb, c₂, hget, hend⟩

/-! ### A test for overflow -/

/-- The value that comes into a phi node of the overflow block from `bb`. -/
theorem find?_overflowIncoming {rs : CMRegState} {bb : BBId} {phis : List Nat}
    {regs : List CMRegId} {ics : List (Nat × Val × BBId)}
    (h : List.Forall₂ (fun pr ic => ∃ v, rs.val pr.2 = some v ∧ v.getType = ptrTy ∧
      ic = (pr.1, v, bb)) (phis.zip regs) ics) (hnodup : phis.Nodup) {i phi : Nat} {r : CMRegId}
    (hphi : phis[i]? = some phi) (hr : regs[i]? = some r) :
    ∃ v, rs.val r = some v ∧ v.getType = ptrTy ∧
      (ics.find? fun p => p.1 = phi ∧ p.2.2 = bb) = some (phi, v, bb) := by
  induction phis generalizing regs ics i with
  | nil => simp at hphi
  | cons phi' phis ih =>
      cases regs with
      | nil => simp at hr
      | cons r' regs =>
          rw [List.nodup_cons] at hnodup
          rw [List.zip_cons_cons] at h
          cases h with
          | cons hic hics =>
              obtain ⟨v, hv, hty, rfl⟩ := hic
              cases i with
              | zero =>
                  obtain rfl : phi' = phi := by simpa using hphi
                  obtain rfl : r' = r := by simpa using hr
                  exact ⟨v, hv, hty, by simp⟩
              | succ i =>
                  have hphi' : phis[i]? = some phi := by simpa using hphi
                  have hne : phi' ≠ phi := fun he =>
                    hnodup.1 (he ▸ List.mem_of_getElem? hphi')
                  obtain ⟨w, hw, hwty, hfind⟩ := ih hics hnodup.2 hphi' (by simpa using hr)
                  exact ⟨w, hw, hwty, by rw [List.find?_cons_of_neg (by simp [hne]), hfind]⟩

/-- A test for overflow in a run: the contexts before and after it, and the end. -/
structure OverflowTest (obit res : Val) (d d' C : Context) : Prop where
  branch : overflowBranch obit res d = .ok (res, d')
  unused : ∀ b, (∃ m, d.nextBB ≤ m ∧ b = .new m) → Unused d b
  phis : ∀ p ∈ d.body.phis, Old d p.1
  old : Old d d.curBB
  incoming : ∀ p ∈ d.body.incoming, p.2.2 ≠ d.curBB
  grows : ∃ R : BBId → Prop, ¬ R d.curBB ∧ Grows R d' C
  overflow : ∀ bb, d'.overflowBB = some bb → OverflowAt C bb

namespace OverflowTest

variable {obit res : Val} {d d' C : Context}

/-- The code of the test, with the overflow block `bb`. -/
theorem code (h : OverflowTest obit res d d' C) : ∃ bb, OverflowAt C bb ∧
    d'.curBB = .new d.nextBB ∧ d'.body.block d'.curBB = [] ∧ d'.nextId ≥ d.nextId ∧
    C.body.phisOf d'.curBB = [] ∧
    C.body.block d.curBB = d.body.block d.curBB
      ++ [.term (.condBr obit bb d'.curBB (some 1))] ∧
    ∀ (i : Nat) phi r, C.overflowPhiNodes[i]? = some phi → C.target.machineRegs[i]? = some r →
      ∃ v, d.regState.val r = some v ∧ v.getType = ptrTy ∧
        C.body.incomingOf phi d.curBB = some v := by
  obtain ⟨-, bb, c₁, ics, hovflw, hd', hics⟩ := overflowBranch_ok h.branch
  obtain ⟨hg, hcur, hregs, hvMap, hmade, hinc⟩ := theOverflowBB_grows hovflw
  obtain ⟨R, hR, hgC⟩ := h.grows
  have hat : OverflowAt C bb := h.overflow bb (by rw [hd']; exact hmade)
  have hcur' : d'.curBB = .new d.nextBB := by rw [hd']
  have hne : d.curBB ≠ .new d.nextBB := fun he => absurd (h.old _ he) (Nat.lt_irrefl _)
  have hblock₁ : ∀ b, b ≠ .new (d.nextBB + 1) → c₁.body.block b = d.body.block b := fun b hb =>
    hg.block_eq hb
  refine ⟨bb, hat, hcur', ?_, ?_, ?_, ?_, fun i phi r hphi hr => ?_⟩
  · have hnew : d.body.block (.new d.nextBB) = [] := by
      rw [Body.block, List.filterMap_eq_nil_iff]
      intro p hp
      rw [if_neg ((h.unused _ ⟨_, Nat.le_refl _, rfl⟩).insts p hp)]
    have hc₁ : c₁.body.block (.new d.nextBB) = [] := by
      rw [hblock₁ _ (by intro he; injection he with he; omega), hnew]
    rw [hcur', hd']
    simp only [Body.block, List.filterMap_append] at hc₁ ⊢
    rw [hc₁, hcur]
    simp [hne]
  · rw [hd']
    exact hg.nextId_le
  · have hold' : Old d' d'.curBB := by
      rw [hcur', hd']
      rintro m ⟨⟩
      exact hg.nextBB_le
    rw [hgC.phisOf_eq hold', Body.phisOf, List.filterMap_eq_nil_iff]
    intro p hp
    rw [if_neg]
    intro hb
    obtain ⟨ps, heq, hps⟩ := hg.phis
    have hp' : p ∈ d.body.phis ++ ps := by
      rw [hd'] at hp
      exact heq ▸ hp
    rw [hcur'] at hb
    rcases List.mem_append.mp hp' with hp' | hp'
    · exact absurd (h.phis p hp' _ hb) (Nat.lt_irrefl _)
    · obtain ⟨⟨m, hm, -, hnew⟩, -⟩ := hps p hp'
      rw [hb] at hnew
      injection hnew with hnew
      have hm' : d.nextBB + 1 ≤ m := hm
      omega
  · rw [hgC.block_eq hR, hcur', hd']
    have hc₁ := hblock₁ d.curBB fun he => by
      have := h.old _ he
      omega
    simp only [Body.block, List.filterMap_append] at hc₁ ⊢
    rw [hc₁, hcur]
    simp
  · have hnodes : C.overflowPhiNodes = c₁.overflowPhiNodes :=
      (hgC.overflow bb (by rw [hd']; exact hmade)).2.trans (by rw [hd'])
    have htarget : C.target = c₁.target := hgC.target.trans (by rw [hd'])
    rw [hnodes] at hphi
    rw [htarget] at hr
    obtain ⟨v, hv, hty, hfind⟩ := find?_overflowIncoming hics (hnodes ▸ hat.nodup) hphi hr
    refine ⟨v, by rw [← hregs]; exact hv, hty, hgC.incomingOf_eq ?_⟩
    have hnone : (d.body.incoming.find? fun p => p.1 = phi ∧ p.2.2 = d.curBB) = none := by
      rw [List.find?_eq_none]
      intro p hp
      simp only [decide_eq_true_eq, not_and]
      exact fun _ => h.incoming p hp
    rw [hd']
    have hinc' : c₁.body.incoming = d.body.incoming := hinc
    simp only [Body.incomingOf, hinc', List.find?_append, hnone, Option.none_or, hfind,
      Option.map_some]

variable {act : Activation Sym} {s : State}

/-- Without overflow, execution goes on in the new block. -/
theorem reaches_next (h : OverflowTest obit res d d' C) (hobit : obit.eval act s.regs = some 0) :
    Reaches act C.body (d.config C s) (d'.config C s) := by
  obtain ⟨bb, hat, hcur, hempty, -, hphis, hblock, -⟩ := h.code
  have henter : enter act C.body d.curBB d'.curBB s = some s := by
    simp [enter, hphis]
  have hrest : d'.rest C = C.body.block d'.curBB := by
    rw [Context.rest, hempty]
    rfl
  have hstep : next act C.body (d.config C s) = some (d'.config C s) := by
    rw [Context.config, Context.rest_eq hblock]
    simp [next, Terminator.exit, hobit, henter, Context.config, hrest]
  exact .single hstep

/-- With overflow, control goes to the overflow block, and its phi nodes get the
values of the registers. -/
theorem reaches_overflow (h : OverflowTest obit res d d' C) {w : Word} (hw : w ≠ 0)
    (hobit : obit.eval act s.regs = some w) {ws : CMRegId → Word}
    (hregs : ∀ r v, d.regState.val r = some v → v.eval act s.regs = some (ws r)) :
    ∃ bb s', OverflowAt C bb ∧ Reaches act C.body (d.config C s) ⟨bb, C.body.block bb, s'⟩ ∧
      s'.mem = s.mem ∧ s'.trace = s.trace ∧
      ∀ (i : Nat) r, C.target.machineRegs[i]? = some r →
        ∃ phi, C.overflowPhiNodes[i]? = some phi ∧ s'.regs phi = [ws r] := by
  obtain ⟨bb, hat, -, -, -, -, hblock, hinc⟩ := h.code
  have hfst : (C.body.phisOf bb).map Prod.fst = C.overflowPhiNodes := by
    rw [hat.phis, List.map_map]
    exact List.map_id _
  have hlen : (C.body.phisOf bb).length = (C.target.machineRegs.map ws).length := by
    rw [hat.phis, List.length_map, List.length_map, hat.length]
    rfl
  have hvals : List.Forall₂ (fun p w => ∃ v, C.body.incomingOf p.1 d.curBB = some v ∧
      v.eval act s.regs = some w) (C.body.phisOf bb) (C.target.machineRegs.map ws) := by
    rw [List.forall₂_iff_get]
    refine ⟨hlen, fun i hi hi' => ?_⟩
    rw [List.length_map] at hi'
    have hphi : C.overflowPhiNodes[i]? = some ((C.body.phisOf bb).get ⟨i, hi⟩).1 := by
      rw [← hfst, List.getElem?_map, List.getElem?_eq_getElem hi]
      rfl
    obtain ⟨v, hv, -, hvinc⟩ := hinc i _ _ hphi (List.getElem?_eq_getElem hi')
    exact ⟨v, hvinc, by simpa using hregs _ v hv⟩
  obtain ⟨s', henter, hmem, htrace, hphis, -⟩ := enter_ok (hfst ▸ hat.nodup) hvals
  refine ⟨bb, s', hat, .single ?_, hmem, htrace, fun i r hr => ?_⟩
  · have hexit : (Terminator.condBr obit bb d'.curBB (some 1)).exit act s.regs
        = some (.goto bb) := by
      show (obit.eval act s.regs >>= fun c => some (Exit.goto (if c = 0 then d'.curBB else bb)))
        = _
      rw [hobit]
      exact congrArg (fun b => some (Exit.goto b)) (if_neg hw)
    rw [Context.config, Context.rest_eq hblock]
    simp only [next, hexit, henter, Option.map_some]
  · obtain ⟨hi, -⟩ := List.getElem?_eq_some_iff.mp hr
    have hi' : i < (C.body.phisOf bb).length := by
      rw [hlen, List.length_map]
      exact hi
    refine ⟨((C.body.phisOf bb).get ⟨i, hi'⟩).1, ?_, ?_⟩
    · rw [← hfst, List.getElem?_map, List.getElem?_eq_getElem hi']
      rfl
    · exact hphis i _ _ (List.getElem?_eq_getElem hi') (by rw [List.getElem?_map, hr]; rfl)

end OverflowTest

/-- The test for overflow of an operation in a run. -/
theorem Visited.overflowTest {C d d₁ d' c : Context} {frag : Nat} {s k : Stm .cpp}
    {path : List Nat} {obit res : Val} {lv : LVar} (h : Visited C frag s path d)
    (hk : Visited C frag k path c) (hvisit : Visits (.stm frag s path, d) (.stm frag k path, c))
    (hstay : StaysIn d d₁) (hadv : Advances d d₁)
    (hbr : overflowBranch obit res d₁ = .ok (res, d')) (hins : insertVal lv res d' = .ok ((), c)) :
    OverflowTest obit res d₁ d' C where
  branch := hbr
  unused b hb := h.ready.unused_of_head hadv (.inr hb)
  phis p hp := (hadv.grows.phis_old h.ready.phis p hp).1
  old := hadv.old
  incoming := by
    rw [hstay.incoming, hstay.curBB]
    exact (h.ready.cur _ rfl).2
  grows := by
    have hg := h.grows _ c hvisit
    cases hins
    have hg' : Grows (fun b => some d'.curBB = some b ∨ Unused d' b) d' C :=
      ((Grows.of_eq _ d'.curBB d'.regState rfl).trans hg).mono fun b hb =>
        hb.imp id fun hu => ⟨hu.insts, hu.incoming⟩
    refine ⟨_, ?_, hg'⟩
    obtain ⟨-, bb, c₁, ics, hovflw, rfl, -⟩ := overflowBranch_ok hbr
    rintro (hcur | hunused)
    · injection hcur with hcur
      exact absurd (hadv.old _ hcur.symm) (Nat.lt_irrefl _)
    · refine hunused.insts _ (List.mem_append_right _ List.mem_cons_self) ?_
      exact (theOverflowBB_grows hovflw).2.1
  overflow bb hbb := by
    refine h.overflow _ c hvisit bb ?_
    cases hins
    exact hbb

end SmlnjCfg.Codegen

namespace SmlnjCfg.CfgPrim

open Cfg Codegen Gen IR

/-! ### What the operators mean -/

/-- The number an operator stands for, without a bound on its size; division and
remainder truncate, and have no result for a zero divisor. -/
def Arithop.denote : Arithop → Int → Int → Option Int
  | .IADD, x, y => some (x + y)
  | .ISUB, x, y => some (x - y)
  | .IMUL, x, y => some (x * y)
  | .IDIV, x, y => if y = 0 then none else some (x.tdiv y)
  | .IREM, x, y => if y = 0 then none else some (x.tmod y)

/-- The operators that use an instruction without an overflow bit. -/
def Arithop.divides (op : Arithop) : Bool := op.overflowOp.isNone

/-- The result and the overflow bit of an intrinsic. -/
theorem Arithop.evalBits_overflow {n : Nat} {op : Arithop} {o : OverflowOp} {a b : BitVec n}
    {r : Int} (ho : op.overflowOp = some o) (hr : op.denote a.toInt b.toInt = some r) :
    ((o.evalBits a b).2 = true ↔ ¬ Bits.Fits n r) ∧
      (Bits.Fits n r → (o.evalBits a b).1.toInt = r) := by
  cases op with
  | IADD =>
      cases ho
      cases hr
      have hiff := Bits.saddOverflow_iff a b
      exact ⟨hiff, fun hfit => BitVec.toInt_add_of_not_saddOverflow fun h => hiff.mp h hfit⟩
  | ISUB =>
      cases ho
      cases hr
      have hiff := Bits.ssubOverflow_iff a b
      exact ⟨hiff, fun hfit => BitVec.toInt_sub_of_not_ssubOverflow fun h => hiff.mp h hfit⟩
  | IMUL =>
      cases ho
      cases hr
      have hiff := Bits.smulOverflow_iff a b
      exact ⟨hiff, fun hfit => BitVec.toInt_mul_of_not_smulOverflow fun h => hiff.mp h hfit⟩
  | IDIV => cases ho
  | IREM => cases ho

/-- The instruction of a division. -/
def Arithop.divOp (op : Arithop) : BinOp := if op = .IDIV then .sdiv else .srem

/-- The result of a division fits, but for that of the least number by `-1`. -/
theorem Arithop.evalBits_div {n : Nat} (hn : 0 < n) {op : Arithop} {a b : BitVec n} {r : Int}
    (hop : op.divides = true) (hr : op.denote a.toInt b.toInt = some r)
    (hmin : ¬ (a.toInt = -2 ^ (n - 1) ∧ b.toInt = -1)) :
    ∃ w, op.divOp.evalBits a b = some w ∧ w.toInt = r := by
  have hover : ¬ BitVec.sdivOverflow a b = true := by rwa [Bits.sdivOverflow_iff hn]
  have hzero : ∀ {t}, (if b.toInt = 0 then none else some t) = some r → b ≠ 0 ∧ t = r := by
    intro t h
    rw [Option.ite_none_left_eq_some, Option.some.injEq] at h
    exact ⟨fun hb => h.1 (by rw [hb]; exact BitVec.toInt_zero), h.2⟩
  cases op with
  | IADD => cases hop
  | ISUB => cases hop
  | IMUL => cases hop
  | IDIV =>
      obtain ⟨hb, rfl⟩ := hzero hr
      exact ⟨a.sdiv b, if_neg (not_or.mpr ⟨hb, hover⟩), Bits.toInt_sdiv_of_not_overflow hn hmin⟩
  | IREM =>
      obtain ⟨hb, rfl⟩ := hzero hr
      exact ⟨a.srem b, if_neg (not_or.mpr ⟨hb, hover⟩), BitVec.toInt_srem a b⟩

/-- A division of the least number by `-1` is undefined. -/
theorem Arithop.evalBits_div_min {n : Nat} (hn : 0 < n) {op : Arithop} {a b : BitVec n}
    (hmin : a.toInt = -2 ^ (n - 1) ∧ b.toInt = -1) : op.divOp.evalBits a b = none := by
  have hover : BitVec.sdivOverflow a b = true := (Bits.sdivOverflow_iff hn a b).mpr hmin
  unfold divOp
  split
  · exact if_pos (.inr hover)
  · exact if_pos (.inr hover)

/-! ### The code of the operands and of the operation -/

variable {act : Activation Sym}

/-- The operands are coerced to integers of the size. -/
theorem Arith.does_operands {c : Context} {s : State} {sz : Int} {a b : Val} {x y : Word}
    (ha : Is act c s a x) (hta : a.getType = iType sz ∨ a.getType = ptrTy)
    (hb : Is act c s b y) (htb : b.getType = iType sz ∨ b.getType = ptrTy) :
    (Arith.operands sz [a, b]).Does act c s fun p c' s' => Quiet c c' s s' ∧
      p.1.getType = iType sz ∧ p.2.getType = iType sz ∧
      ∃ x' y', Is act c' s' p.1 x' ∧ Is act c' s' p.2 y' ∧
        x'.setWidth (iBits sz) = x.setWidth (iBits sz) ∧
        y'.setWidth (iBits sz) = y.setWidth (iBits sz) := by
  refine .bind (.assert rfl (.bind (.argAt rfl (.bind ?_))))
  refine .asIntSz ha hta fun a' x' c₁ s₁ hq₁ ha' hta' hx => .bind (.argAt rfl (.bind ?_))
  refine .asIntSz (hb.later hq₁.toLater) htb fun b' y' c₂ s₂ hq₂ hb' htb' hy => .pure ?_
  exact ⟨hq₁.trans hq₂, hta', htb', x', y', ha'.later hq₂.toLater, hb', hx, hy⟩

/-- An operation that may overflow computes its result and the overflow bit. -/
theorem Arith.does_trapOp {c : Context} {s : State} {o : OverflowOp} {bits : Nat} {a b : Val}
    {x y : Word} (ha : Is act c s a x) (hta : a.getType = .int bits) (hb : Is act c s b y)
    (htb : b.getType = .int bits) :
    (Arith.trapOp o bits a b).Does act c s fun q c' s' => Quiet c c' s s' ∧
      q.1.getType = .int bits ∧ Is act c' s' q.1 (o.eval bits x y).1 ∧
      Is act c' s' q.2 (BitVec.ofNat 64 (o.eval bits x y).2.toNat) := by
  have hpair : (Gen.emit (.overflow o bits a b) Gen.ret : Gen Nat).Does act c s fun pair c' s' =>
      Quiet c c' s s' ∧ pair < c'.nextId ∧
        s'.regs pair = [(o.eval bits x y).1, BitVec.ofNat 64 (o.eval bits x y).2.toNat] := by
    refine ⟨c.nextId, c.emitOp (.overflow o bits a b), s.setReg c.nextId
      [(o.eval bits x y).1, BitVec.ofNat 64 (o.eval bits x y).2.toNat], ?_, .emitOp c s _ _,
      Nat.lt_succ_self _, by simp⟩
    rw [exec, if_pos (by simp [Op.wellTyped, hta, htb])]
    simp [Op.step, ha.eval, hb.eval, exec]
  obtain ⟨pair, c₁, s₁, hexec, hq₁, hlt, hregs⟩ := hpair
  refine .bind ⟨pair, c₁, s₁, hexec, .bind ?_⟩
  refine .inst (w := (o.eval bits x y).1) rfl (by simp [Op.step, hregs])
    fun res c₂ s₂ hq₂ hres htres => .bind ?_
  have hregs₂ := (hq₂.regs pair hlt).trans hregs
  refine .inst (w := BitVec.ofNat 64 (o.eval bits x y).2.toNat) rfl
    (by simp [Op.step, hregs₂]) fun obit c₃ s₃ hq₃ hobit _ => .pure ?_
  exact ⟨hq₁.trans (hq₂.trans hq₃), htres, hres.later hq₃.toLater, hobit⟩

/-- A division whose operands are allowed computes its result. -/
theorem Arith.does_div {op : Arithop} (hop : op.divides = true) {c : Context} {s : State}
    {n : Nat} (hn : 0 < n) {a b : Val} {x y : Word} {r : Int} (ha : Is act c s a x)
    (hta : a.getType = .int n) (hb : Is act c s b y) (htb : b.getType = .int n)
    (hr : op.denote (x.setWidth n).toInt (y.setWidth n).toInt = some r)
    (hmin : ¬ ((x.setWidth n).toInt = -2 ^ (n - 1) ∧ (y.setWidth n).toInt = -1)) :
    (createBin op.divOp a b).Does act c s fun v c' s' => Quiet c c' s s' ∧
      v.getType = .int n ∧ ∃ w : BitVec n, Is act c' s' v (w.setWidth 64) ∧ w.toInt = r := by
  obtain ⟨w, hw, hwr⟩ := op.evalBits_div hn hop hr hmin
  have heval : op.divOp.eval n x y = some (w.setWidth 64) := by
    rw [BinOp.eval, hw]
    rfl
  exact .createBin ha (.inl hta) hb (.inl htb) heval fun v c' s' hq hv ht => ⟨hq, ht, w, hv, hwr⟩

/-! ### The statement -/

/-- The signed number in the low bits of a word. -/
def signedOf (sz : Int) (w : Word) : Int := (w.setWidth (iBits sz)).toInt

/-- The code of the arguments of an `ARITH` is well typed, its execution ends, and
it leaves two values with the numbers `x` and `y`, each an integer of the size or an
ML value. -/
def Arith.Supplies (act : Activation Sym) (d : Context) (s : State) (sz : Int)
    (args : List (Exp .cpp)) (x y : Int) : Prop :=
  ∃ a b wx wy c₁ s₁, (Exp.codegenArgs args).exec act d s = some ([a, b], c₁, s₁) ∧
    (a.getType = iType sz ∨ a.getType = ptrTy) ∧ a.eval act s₁.regs = some wx ∧
    signedOf sz wx = x ∧
    (b.getType = iType sz ∨ b.getType = ptrTy) ∧ b.eval act s₁.regs = some wy ∧
    signedOf sz wy = y

/-- The value of a variable is the number `r`. -/
def Arith.Denotes (act : Activation Sym) (c : Context) (s : State) (sz : Int) (lv : LVar)
    (r : Int) : Prop :=
  ∃ v w, c.vMap lv = some v ∧ v.getType = iType sz ∧ v.eval act s.regs = some w ∧
    signedOf sz w = r

/-- From `d` on, execution comes to the overflow block, with the values of the
registers in its phi nodes. -/
def Arith.Overflows (act : Activation Sym) (d C : Context) (s : State) (ws : CMRegId → Word) :
    Prop :=
  ∃ bb s', OverflowAt C bb ∧ Reaches act C.body (d.config C s) ⟨bb, C.body.block bb, s'⟩ ∧
    s'.mem = s.mem ∧ s'.trace = s.trace ∧
    ∀ (i : Nat) reg, C.target.machineRegs[i]? = some reg →
      ∃ phi, C.overflowPhiNodes[i]? = some phi ∧ s'.regs phi = [ws reg]

/-- The code of an `ARITH` with the mathematical result `r` is right: execution goes
on with the parameter bound to `r`, or comes to the overflow block if `r` does
not fit. -/
def Arith.Exact (act : Activation Sym) (d C : Context) (s : State) (ws : CMRegId → Word)
    (frag : Nat) (stm : Stm .cpp) (path : List Nat) (sz : Int) (param : Param) (r : Int) : Prop :=
  ∃ c, stm.head frag path d = .ok ((), c) ∧
    if Bits.Fits (iBits sz) r then
      ∃ s', Reaches act C.body (d.config C s) (c.config C s') ∧ Later d c s s' ∧
        s'.mem = s.mem ∧ s'.trace = s.trace ∧ Arith.Denotes act c s' sz param.name r
    else Arith.Overflows act d C s ws

/-- The operands of a division whose quotient does not fit. -/
def Arith.MinByMinusOne (sz : Int) (op : Arithop) (x y : Int) : Prop :=
  op.divides = true ∧ x = -2 ^ (iBits sz - 1) ∧ y = -1

section

variable {act : Activation Sym} {d C c : Context} {s : State} {frag : Nat} {op : Arithop}
  {sz : Int} {args : List (Exp .cpp)} {param : Param} {k : Stm .cpp} {path : List Nat}

/-- The code of an `ARITH` in its parts. -/
theorem Arith.head_ok
    (h : Stm.head frag (.ARITH (.ARITH (.con op) sz) args param k) path d = .ok ((), c)) :
    ∃ vs c₁ p c₂ v c₃, (Exp.codegenArgs args).run d = .ok (vs, c₁) ∧
      (Arith.operands sz vs).run c₁ = .ok (p, c₂) ∧
      insertVal param.name v c₃ = .ok ((), c) ∧
      ((∃ o q c₄, op.overflowOp = some o ∧
          (Arith.trapOp o (if sz = 32 then 32 else 64) p.1 p.2).run c₂ = .ok (q, c₄) ∧
          q.1 = v ∧ overflowBranch q.2 v c₄ = .ok (v, c₃)) ∨
        op.divides = true ∧ (createBin op.divOp p.1 p.2).run c₂ = .ok (v, c₃)) := by
  obtain ⟨vs, c₁, hargs, h₁⟩ := CodegenM.bind_ok.mp h
  obtain ⟨v, c₃, hcode, hins⟩ := CodegenM.bind_ok.mp h₁
  rw [Arith.codegen_eq] at hcode
  obtain ⟨p, c₂, hoperands, hcode⟩ := CodegenM.bind_ok.mp hcode
  refine ⟨vs, c₁, p, c₂, v, c₃, hargs, hoperands, hins, ?_⟩
  cases ho : op.overflowOp with
  | some o =>
      rw [ho] at hcode
      obtain ⟨q, c₄, htrap, hbr⟩ := CodegenM.bind_ok.mp hcode
      obtain rfl := (overflowBranch_ok hbr).1
      exact .inl ⟨o, q, c₄, rfl, htrap, rfl, hbr⟩
  | none =>
      rw [ho] at hcode
      exact .inr ⟨by rw [Arithop.divides, ho]; rfl, hcode⟩

/-- What is bound to the parameter after an `ARITH`. -/
theorem insertVal_vMap {lv : LVar} {v : Val} {c c' : Context}
    (h : insertVal lv v c = .ok ((), c')) :
    c'.vMap lv = some ((c.vMap lv).getD v) := by
  cases h
  show (if lv = lv ∧ c.vMap lv = none then some v else c.vMap lv) = _
  cases hlv : c.vMap lv with
  | none => simp
  | some v' => simp

theorem plain_operands (sz : Int) (args : List Val) : (Arith.operands sz args).Plain :=
  .bind (.assert _ _) fun _ => .bind (.argAt _ _) fun _ => .bind (.asIntSz _ _) fun _ =>
    .bind (.argAt _ _) fun _ => .bind (.asIntSz _ _) fun _ => .pure _

theorem plain_trapOp (o : OverflowOp) (bits : Nat) (a b : Val) :
    (Arith.trapOp o bits a b).Plain :=
  .bind ⟨rfl, fun _ => trivial⟩ fun _ => .bind (.inst rfl) fun _ => .bind (.inst rfl) fun _ =>
    .pure _

/-- The parameter of an `ARITH` keeps the value it has, if any. -/
theorem Arith.head_vMap
    (h : Stm.head frag (.ARITH (.ARITH (.con op) sz) args param k) path d = .ok ((), c)) :
    ∃ v, c.vMap param.name = some ((d.vMap param.name).getD v) := by
  obtain ⟨vs, c₁, p, c₂, v, c₃, hargs, hoperands, hins, hcode⟩ := Arith.head_ok h
  have h₁ := ((Exp.plain_args args).sameEnv hargs).vMap
  have h₂ := ((plain_operands sz vs).sameEnv hoperands).vMap
  have h₃ : c₃.vMap = c₂.vMap := by
    rcases hcode with ⟨o, q, c₄, -, htrap, -, hbr⟩ | ⟨-, hdiv⟩
    · obtain ⟨-, bb, c₅, ics, hovflw, rfl, -⟩ := overflowBranch_ok hbr
      exact (theOverflowBB_grows hovflw).2.2.2.1.trans ((plain_trapOp _ _ _ _).sameEnv htrap).vMap
    · exact ((Plain.createBin _ _ _).sameEnv hdiv).vMap
  exact ⟨v, by rw [insertVal_vMap hins, h₃, h₂, h₁]⟩

/-- What is computed at `d` has the same value later. -/
theorem Arith.Denotes.later {s' : State} {lv : LVar} {r : Int} (hc : Computed d)
    (h : Arith.Denotes act d s sz lv r) (hl : Later d c s s') (hv : c.vMap lv = d.vMap lv) :
    Arith.Denotes act c s' sz lv r := by
  obtain ⟨v, w, hlv, hty, hw, hr⟩ := h
  exact ⟨v, w, hv.trans hlv, hty, (Value.eval_congr (hc.vMap lv v hlv) hl.regs).trans hw, hr⟩

/-- The parameter must not have another value. -/
theorem Arith.Exact.bound {ws : CMRegId → Word} {r : Int} (hc : Computed d)
    (h : Arith.Exact act d C s ws frag (.ARITH (.ARITH (.con op) sz) args param k) path sz param r)
    (hfit : Bits.Fits (iBits sz) r) :
    d.vMap param.name = none ∨ Arith.Denotes act d s sz param.name r := by
  obtain ⟨c, hhead, hexact⟩ := h
  rw [if_pos hfit] at hexact
  obtain ⟨s', -, hl, -, -, v, w, hv, hty, hw, hr⟩ := hexact
  obtain ⟨v', hv'⟩ := Arith.head_vMap hhead
  cases hd : d.vMap param.name with
  | none => exact .inl rfl
  | some v₀ =>
      rw [hd, Option.getD_some] at hv'
      obtain rfl : v₀ = v := Option.some.inj (hv'.symm.trans hv)
      exact .inr ⟨v₀, w, hd, hty, (Value.eval_congr (hc.vMap _ _ hd) hl.regs).symm.trans hw, hr⟩

/-- The execution of the operands. -/
theorem Arith.exec_operands {x y : Int} (hc : Computed d)
    (h : Arith.Supplies act d s sz args x y) :
    ∃ vs p c₁ c₂ s₂ wx wy, (Exp.codegenArgs args).run d = .ok (vs, c₁) ∧
      (Exp.codegenArgs args >>= fun vs => Arith.operands sz vs).exec act d s = some (p, c₂, s₂) ∧
      (Arith.operands sz vs).run c₁ = .ok (p, c₂) ∧ Quiet d c₂ s s₂ ∧
      p.1.getType = iType sz ∧ p.2.getType = iType sz ∧ Is act c₂ s₂ p.1 wx ∧
      Is act c₂ s₂ p.2 wy ∧ signedOf sz wx = x ∧ signedOf sz wy = y := by
  obtain ⟨a, b, wx, wy, c₁, s₁, hexec, hta, ha, hx, htb, hb, hy⟩ := h
  have hrun := (exec_eq_some.mp hexec).1
  have hbelow := hc.args hrun
  obtain ⟨p, c₂, s₂, hexec₂, hq, htp₁, htp₂, wx', wy', hp₁, hp₂, hwx, hwy⟩ :=
    Arith.does_operands ⟨hbelow a (by simp), ha⟩ hta ⟨hbelow b (by simp), hb⟩ htb
  refine ⟨[a, b], p, c₁, c₂, s₂, wx', wy', hrun, ?_, (exec_eq_some.mp hexec₂).1,
    ((Exp.plain_args args).quiet hexec).trans hq, htp₁, htp₂, hp₁, hp₂, ?_, ?_⟩
  · rw [exec_bind, hexec]
    exact hexec₂
  · rw [signedOf, hwx]
    exact hx
  · rw [signedOf, hwy]
    exact hy

/-- The code of an `ARITH` is generated where its operands are supplied, if the test for
overflow can be. -/
theorem Arith.head_runs {x y : Int} (hc : Computed d) (hplaced : RegsPlaced d)
    (hops : Arith.Supplies act d s sz args x y) (hptr : op.divides = false → PtrRegs d) :
    ∃ c, Stm.head frag (.ARITH (.ARITH (.con op) sz) args param k) path d = .ok ((), c) := by
  obtain ⟨vs, p, c₁, c₂, s₂, wx, wy, hargs, hexec, hoperands, hq, -⟩ :=
    Arith.exec_operands hc hops
  have hcode : ∃ v c₃, (Arith.codegen vs (.ARITH (.con op) sz) : CodegenM Val) c₁
      = .ok (v, c₃) := by
    rw [Arith.codegen_eq]
    cases ho : op.overflowOp with
    | none =>
        obtain ⟨v, c₃, hrun⟩ := Gen.Total.createBin op.divOp p.1 p.2 c₂
        exact ⟨v, c₃, CodegenM.bind_ok.mpr ⟨p, c₂, hoperands, hrun⟩⟩
    | some o =>
        have htotal : (Arith.trapOp o (if sz = 32 then 32 else 64) p.1 p.2).Total := fun c =>
          ⟨_, _, rfl⟩
        obtain ⟨q, c₃, hrun⟩ := htotal c₂
        have henv := (plain_trapOp _ _ _ _).sameEnv hrun
        have htarget : c₃.target = d.target := henv.target.trans hq.target
        have hregs : c₃.regState = d.regState := henv.regState.trans hq.regState
        -- the registers are still those before the operation
        have hvals : ∀ r ∈ c₃.target.machineRegs,
            ∃ v, c₃.regState.val r = some v ∧ v.getType = ptrTy := by
          intro r hr
          rw [htarget, TargetInfo.mem_machineRegs, ← hplaced r, Option.isSome_iff_exists] at hr
          obtain ⟨v, hv⟩ := hr
          rw [hregs]
          exact ⟨v, hv, hptr (by rw [Arithop.divides, ho]; rfl) r v hv⟩
        obtain ⟨c₄, hbr⟩ := overflowBranch_runs q.2 q.1 hvals
        refine ⟨q.1, c₄, CodegenM.bind_ok.mpr ⟨p, c₂, hoperands, ?_⟩⟩
        exact CodegenM.bind_ok.mpr ⟨q, c₃, hrun, hbr⟩
  obtain ⟨v, c₃, hcode⟩ := hcode
  exact ⟨_, CodegenM.bind_ok.mpr ⟨vs, c₁, hargs, CodegenM.bind_ok.mpr ⟨v, c₃, hcode, rfl⟩⟩⟩

theorem iBits_eq (hsz : sz = 32 ∨ sz = 64) : (if sz = 32 then 32 else 64) = iBits sz := by
  rcases hsz with rfl | rfl <;> rfl

/-- The binding of the parameter after the code of the operation. -/
theorem Arith.denotes_param {c₃ : Context} {s₃ : State} {v : Val} {w : Word} {r : Int}
    (hc : Computed d) (hl : Later d c₃ s s₃) (hvMap : c₃.vMap = d.vMap)
    (hins : insertVal param.name v c₃ = .ok ((), c))
    (hfree : d.vMap param.name = none ∨ Arith.Denotes act d s sz param.name r)
    (hty : v.getType = iType sz) (hv : v.eval act s₃.regs = some w) (hr : signedOf sz w = r) :
    Arith.Denotes act c s₃ sz param.name r := by
  have hbound := insertVal_vMap hins
  rcases hfree with hnone | hden
  · rw [hvMap, hnone, Option.getD_none] at hbound
    exact ⟨v, w, hbound, hty, hv, hr⟩
  · have hbefore := hden
    obtain ⟨v₀, w₀, hv₀, -⟩ := hbefore
    refine hden.later hc ⟨?_, hl.regs⟩ ?_
    · cases hins
      exact hl.nextId_le
    · rw [hbound, hvMap, hv₀]
      rfl

/-- In a run, the registers are pointers wherever there is a test for overflow: each of them
comes into a phi node of the overflow block. -/
theorem Arith.ptrRegs (h : Visited C frag (.ARITH (.ARITH (.con op) sz) args param k) path d)
    (hdiv : op.divides = false) : PtrRegs d := by
  intro reg v hv
  obtain ⟨c, hhead, hnext⟩ := h.next rfl
  have hvisit : Visits (.stm frag (.ARITH (.ARITH (.con op) sz) args param k) path, d)
      (.stm frag k path, c) := .single (.next rfl hhead)
  obtain ⟨vs, c₁, p, c₂, w, c₃, hargs, hoperands, hins, hcode⟩ := Arith.head_ok hhead
  rcases hcode with ⟨o, q, c₄, ho, htrap, rfl, hbr⟩ | ⟨hdiv', -⟩
  swap
  · rw [hdiv] at hdiv'
    cases hdiv'
  have hrun : (Exp.codegenArgs args >>= fun vs => Arith.operands sz vs >>= fun p =>
      Arith.trapOp o (if sz = 32 then 32 else 64) p.1 p.2).run d = .ok (q, c₄) :=
    run_bind_ok.mpr ⟨vs, c₁, hargs, run_bind_ok.mpr ⟨p, c₂, hoperands, htrap⟩⟩
  have henv : SameEnv d c₄ := ((Exp.plain_args args).sameEnv hargs).trans
    (((plain_operands sz vs).sameEnv hoperands).trans ((plain_trapOp _ _ _ _).sameEnv htrap))
  have htest := h.overflowTest hnext hvisit (.of_run hrun) (.of_run (h.ready.old _ rfl) hrun)
    hbr hins
  obtain ⟨bb, hat, -, -, -, -, -, hphis⟩ := htest.code
  have htarget : C.target = d.target := (h.grows _ d .refl).target
  have hmem : reg ∈ C.target.machineRegs := by
    rw [htarget, TargetInfo.mem_machineRegs, ← h.placed reg, hv]
    rfl
  obtain ⟨i, hi, hreg⟩ := List.getElem_of_mem hmem
  have hphi : i < C.overflowPhiNodes.length := by
    rw [hat.length]
    exact hi
  obtain ⟨v', hv', hty, -⟩ := hphis i _ reg (List.getElem?_eq_getElem hphi)
    (by rw [List.getElem?_eq_getElem hi, hreg])
  rw [henv.regState, hv] at hv'
  cases hv'
  exact hty

/-- An operation that reports overflow is exact. -/
theorem Arith.exact_trap {o : OverflowOp} {x y r : Int} {ws : CMRegId → Word}
    (h : Visited C frag (.ARITH (.ARITH (.con op) sz) args param k) path d)
    (hsz : sz = 32 ∨ sz = 64) (ho : op.overflowOp = some o)
    (hops : Arith.Supplies act d s sz args x y) (hr : op.denote x y = some r)
    (hws : ∀ reg v, d.regState.val reg = some v → v.eval act s.regs = some (ws reg))
    (hfree : Bits.Fits (iBits sz) r →
      d.vMap param.name = none ∨ Arith.Denotes act d s sz param.name r) :
    Arith.Exact act d C s ws frag (.ARITH (.ARITH (.con op) sz) args param k) path sz param r := by
  obtain ⟨c, hhead, hnext⟩ := h.next rfl
  have hvisit : Visits (.stm frag (.ARITH (.ARITH (.con op) sz) args param k) path, d)
      (.stm frag k path, c) := .single (.next rfl hhead)
  obtain ⟨vs, p, c₁, c₂, s₂, wx, wy, hargs, hexec, hoperands, hq, htp₁, htp₂, hp₁, hp₂, hx, hy⟩ :=
    Arith.exec_operands h.computed hops
  obtain ⟨vs', c₁', p', c₂', v, c₃, hargs', hoperands', hins, hcode⟩ := Arith.head_ok hhead
  rw [hargs] at hargs'
  cases hargs'
  rw [hoperands] at hoperands'
  cases hoperands'
  rcases hcode with ⟨o', q, c₄, ho', htrap, rfl, hbr⟩ | ⟨hdiv, -⟩
  swap
  · rw [Arithop.divides, ho] at hdiv
    cases hdiv
  rw [ho] at ho'
  cases ho'
  rw [iBits_eq hsz] at htrap
  obtain ⟨q', c₄', s₄, hexec₄, hq₄, htq, hres, hobit⟩ :=
    Arith.does_trapOp (o := o) hp₁ htp₁ hp₂ htp₂
  have htrap' := (exec_eq_some.mp hexec₄).1
  rw [htrap] at htrap'
  cases htrap'
  have hall : (Exp.codegenArgs args >>= fun vs => Arith.operands sz vs >>= fun p =>
      Arith.trapOp o (iBits sz) p.1 p.2).exec act d s = some (q, c₄, s₄) := by
    rw [← bind_assoc, exec_bind, hexec]
    exact hexec₄
  have hquiet := hq.trans hq₄
  have htest := h.overflowTest hnext hvisit (.of_run (exec_eq_some.mp hall).1)
    (.of_run (h.ready.old _ rfl) (exec_eq_some.mp hall).1) hbr hins
  have hreach : Reaches act C.body (d.config C s) (c₄.config C s₄) := by
    obtain ⟨bb, -, -, -, -, -, hblock, -⟩ := htest.code
    exact reaches_exec hall hquiet.trace ⟨_, hblock.symm⟩
  obtain ⟨hover, hfits⟩ := op.evalBits_overflow (o := o) (a := wx.setWidth (iBits sz))
    (b := wy.setWidth (iBits sz)) (r := r) ho (by rw [← hr, ← hx, ← hy]; rfl)
  refine ⟨c, hhead, ?_⟩
  split
  next hfit =>
    have hzero : (o.eval (iBits sz) wx wy).2 = false := by
      rw [← Bool.not_eq_true]
      exact fun he => hover.mp he hfit
    have hobit₀ : q.2.eval act s₄.regs = some 0 := by
      rw [hobit.eval, hzero]
      rfl
    have hc₃ : c₄.nextId ≤ c₃.nextId ∧ c₃.vMap = c₄.vMap := by
      obtain ⟨-, bb, c₅, ics, hovflw, rfl, -⟩ := overflowBranch_ok hbr
      obtain ⟨hg, -, -, hvMap, -⟩ := theOverflowBB_grows hovflw
      exact ⟨hg.nextId_le, hvMap⟩
    have hlater : Later d c₃ s s₄ :=
      ⟨Nat.le_trans hquiet.nextId_le hc₃.1, hquiet.regs⟩
    refine ⟨s₄, ?_, ?_, hquiet.mem, hquiet.trace, ?_⟩
    · have hreach' := hreach.trans (htest.reaches_next hobit₀)
      cases hins
      exact hreach'
    · cases hins
      exact ⟨hlater.nextId_le, hlater.regs⟩
    · refine Arith.denotes_param h.computed hlater (hc₃.2.trans hquiet.vMap) hins (hfree hfit)
        htq hres.eval ?_
      rw [← hfits hfit, signedOf]
      exact congrArg BitVec.toInt
        ((BitVec.setWidth_setWidth_of_le _ (iBits_le sz)).trans (BitVec.setWidth_eq _))
  next hfit =>
    have hone : (o.eval (iBits sz) wx wy).2 = true := hover.mpr hfit
    have hregs : ∀ reg v, c₄.regState.val reg = some v → v.eval act s₄.regs = some (ws reg) := by
      intro reg v hv
      rw [hquiet.regState] at hv
      rw [Value.eval_congr (h.computed.regs reg v hv) hquiet.regs]
      exact hws reg v hv
    have hobit₁ : q.2.eval act s₄.regs = some 1 := by
      rw [hobit.eval, hone]
      rfl
    obtain ⟨bb, s', hat, hreach', hmem, htrace, hphis⟩ :=
      htest.reaches_overflow (by decide) hobit₁ hregs
    exact ⟨bb, s', hat, hreach.trans hreach', hmem.trans hquiet.mem, htrace.trans hquiet.trace,
      hphis⟩

/-- A division whose operands are allowed is exact. -/
theorem Arith.exact_div {x y r : Int} {ws : CMRegId → Word}
    (h : Visited C frag (.ARITH (.ARITH (.con op) sz) args param k) path d)
    (hdiv : op.divides = true) (hops : Arith.Supplies act d s sz args x y)
    (hr : op.denote x y = some r) (hmin : ¬ Arith.MinByMinusOne sz op x y)
    (hfree : Bits.Fits (iBits sz) r →
      d.vMap param.name = none ∨ Arith.Denotes act d s sz param.name r) :
    Arith.Exact act d C s ws frag (.ARITH (.ARITH (.con op) sz) args param k) path sz param r := by
  obtain ⟨c, hhead, hnext⟩ := h.next rfl
  obtain ⟨vs, p, c₁, c₂, s₂, wx, wy, hargs, hexec, hoperands, hq, htp₁, htp₂, hp₁, hp₂, rfl, rfl⟩ :=
    Arith.exec_operands h.computed hops
  obtain ⟨vs', c₁', p', c₂', v, c₃, hargs', hoperands', hins, hcode⟩ := Arith.head_ok hhead
  rw [hargs] at hargs'
  cases hargs'
  rw [hoperands] at hoperands'
  cases hoperands'
  rcases hcode with ⟨o, q, c₄, ho, -⟩ | ⟨-, hrun⟩
  · rw [Arithop.divides, ho] at hdiv
    cases hdiv
  have hn : 0 < iBits sz := by
    have := iBits_cases sz
    omega
  obtain ⟨v', c₃', s₃, hexec₃, hq₃, htv, w, hv, rfl⟩ := Arith.does_div hdiv hn hp₁ htp₁ hp₂ htp₂
    hr fun hm => hmin ⟨hdiv, hm⟩
  rw [(exec_eq_some.mp hexec₃).1] at hrun
  cases hrun
  have hall : ((Exp.codegenArgs args >>= fun vs => Arith.operands sz vs) >>= fun p =>
      createBin op.divOp p.1 p.2).exec act d s = some (v, c₃, s₃) := by
    rw [exec_bind, hexec]
    exact hexec₃
  have hquiet := hq.trans hq₃
  have hreach : Reaches act C.body (d.config C s) (c₃.config C s₃) := by
    refine reaches_exec hall hquiet.trace ?_
    have hpre := (hnext.grows _ c .refl).block_grows c.curBB
    cases hins
    exact hpre
  refine ⟨c, hhead, ?_⟩
  rw [if_pos (Bits.fits_toInt w)]
  refine ⟨s₃, ?_, ?_, hquiet.mem, hquiet.trace, ?_⟩
  · cases hins
    exact hreach
  · cases hins
    exact ⟨hquiet.nextId_le, hquiet.regs⟩
  · refine Arith.denotes_param h.computed hquiet.toLater hquiet.vMap hins
      (hfree (Bits.fits_toInt w)) htv hv.eval ?_
    rw [signedOf]
    exact congrArg BitVec.toInt
      ((BitVec.setWidth_setWidth_of_le _ (iBits_le sz)).trans (BitVec.setWidth_eq _))

/-- The quotient of the least number by `-1` is not computed at all. -/
theorem Arith.not_exact_min {x y r : Int} {ws : CMRegId → Word}
    (h : Visited C frag (.ARITH (.ARITH (.con op) sz) args param k) path d)
    (hops : Arith.Supplies act d s sz args x y) (hmin : Arith.MinByMinusOne sz op x y) :
    ¬ Arith.Exact act d C s ws frag (.ARITH (.ARITH (.con op) sz) args param k) path sz param
      r := by
  obtain ⟨hdiv, rfl, rfl⟩ := hmin
  obtain ⟨c, hhead, hnext⟩ := h.next rfl
  obtain ⟨vs, p, c₁, c₂, s₂, wx, wy, hargs, hexec, hoperands, hq, htp₁, htp₂, hp₁, hp₂, hx, hy⟩ :=
    Arith.exec_operands h.computed hops
  obtain ⟨vs', c₁', p', c₂', v, c₃, hargs', hoperands', hins, hcode⟩ := Arith.head_ok hhead
  rw [hargs] at hargs'
  cases hargs'
  rw [hoperands] at hoperands'
  cases hoperands'
  rcases hcode with ⟨o, q, c₄, ho, -⟩ | ⟨-, hrun⟩
  · rw [Arithop.divides, ho] at hdiv
    cases hdiv
  have hn : 0 < iBits sz := by
    have := iBits_cases sz
    omega
  -- both operands are integers already, so one instruction is left, and it is undefined
  have hint : ∀ {v : Val}, v.getType = iType sz → asInt v = pure v := by
    intro v hv
    rw [asInt, hv]
    rfl
  rw [createBin, hint htp₁, hint htp₂, pure_bind, pure_bind, run_inst] at hrun
  cases hrun
  have hundef : (Op.bin op.divOp p.1 p.2).step act c₂.nextId s₂ = none := by
    have heval : op.divOp.eval (iBits sz) wx wy = none := by
      rw [BinOp.eval, op.evalBits_div_min hn ⟨hx, hy⟩]
      rfl
    simp [Op.step, hp₁.eval, hp₂.eval, htp₁, iType, Ty.bits, heval]
  obtain ⟨hrunArgs, is, hext, -, hsteps⟩ := exec_eq_some.mp hexec
  have hblock : C.body.block d.curBB = d.body.block d.curBB
      ++ (is.map (fun p => .op p.1 p.2) ++ .op c₂.nextId (.bin op.divOp p.1 p.2) :: c.rest C) := by
    have hcode := (hext.trans (Ext.emitOp c₂ (.bin op.divOp p.1 p.2))).block_eq
    have hc : c.body.block c.curBB = d.body.block d.curBB
        ++ (is ++ [(c₂.nextId, Op.bin op.divOp p.1 p.2)]).map fun i => .op i.1 i.2 := by
      cases hins
      exact hcode
    have hcur : c.curBB = d.curBB := by
      have hcur₂ := curBB_of_run hrunArgs
      cases hins
      exact hcur₂
    rw [← hcur, Context.block_eq_append ((hnext.grows _ c .refl).block_grows c.curBB), hc, hcur]
    simp
  have hstuck : ∀ cfg, Reaches act C.body (d.config C s) cfg →
      cfg.blk = d.curBB ∧ (c.rest C).length < cfg.rest.length := by
    intro cfg hreach
    rw [Context.config, Context.rest_eq hblock] at hreach
    exact reaches_stuck hsteps hundef hreach
  rintro ⟨c', hhead', hexact⟩
  rw [hhead] at hhead'
  cases hhead'
  split at hexact
  · obtain ⟨s', hreach, -⟩ := hexact
    exact absurd (hstuck _ hreach).2 (Nat.lt_irrefl _)
  · obtain ⟨bb, s', hat, hreach, -⟩ := hexact
    exact h.ne_overflow hat (hstuck _ hreach).1

end

/-- Code generation for a cluster comes to the statement `s` at `d`, and succeeds if it gets
past the head of `s`: whether there is any code depends on this statement alone. -/
structure Comes (cf : ClusterFn) (c₀ : Context) (fs : List FragBB) (d₀ : Context) (frag : Nat)
    (s : Stm .cpp) (path : List Nat) (d : Context) : Prop where
  inits : InitsFrags cf.cluster.frags 0 fs (clusterStart cf c₀) d₀
  visits : Visits (.frags fs 0, d₀) (.stm frag s path, d)
  rest : ∀ c, s.head frag path d = .ok ((), c) → ∃ C, Emits (.frags fs 0) d₀ C

/-- The code of an `ARITH` is generated and is exact, if and only if it is not a division of
the least number by `-1`, the parameter does not have another value already where the result
fits, and the registers are pointers where there is a test for overflow. The registers are
pointers at the statement if all setters of a register before it are given pointers. -/
theorem Arith.exact_iff (cf : ClusterFn) (c₀ : Context) (fs : List FragBB) (d₀ d : Context)
    (frag : Nat) (op : Arithop) (sz : Int) (args : List (Exp .cpp)) (param : Param)
    (k : Stm .cpp) (path : List Nat) (act : Activation Sym) (s : State) (x y r : Int)
    (ws : CMRegId → Word)
    (h : Comes cf c₀ fs d₀ frag (.ARITH (.ARITH (.con op) sz) args param k) path d)
    (hsz : sz = 32 ∨ sz = 64) (hops : Arith.Supplies act d s sz args x y)
    (hr : op.denote x y = some r)
    (hws : ∀ reg v, d.regState.val reg = some v → v.eval act s.regs = some (ws reg)) :
    ((∃ C, ClusterRun cf c₀ C fs d₀ ∧ Arith.Exact act d C s ws frag
        (.ARITH (.ARITH (.con op) sz) args param k) path sz param r) ↔
      ¬ Arith.MinByMinusOne sz op x y ∧
      (Bits.Fits (iBits sz) r →
        d.vMap param.name = none ∨ Arith.Denotes act d s sz param.name r) ∧
      (op.divides = false → PtrRegs d)) ∧
    ((∀ k < c₀.target.numMachineRegs, cf.fn.fnTy[k]? = some ptrTy) →
      RunInv.Allowed PtrOperand (.frags fs 0) d₀ → PtrRegs d) := by
  refine ⟨⟨?_, ?_⟩, fun hty hallowed => h.inits.ptrRegs hty hallowed h.visits⟩
  · rintro ⟨C, hrun, hexact⟩
    have hvis := hrun.visited h.visits
    exact ⟨fun hmin => Arith.not_exact_min hvis hops hmin hexact, hexact.bound hvis.computed,
      fun hdiv => Arith.ptrRegs hvis hdiv⟩
  · rintro ⟨hmin, hfree, hptr⟩
    have hcomputed : Computed d := h.inits.computed h.visits
    obtain ⟨c, hhead⟩ := Arith.head_runs hcomputed h.visits.placed hops hptr
    obtain ⟨C, hemits⟩ := h.rest c hhead
    have hrun : ClusterRun cf c₀ C fs d₀ := ⟨h.inits, hemits⟩
    have hvis := hrun.visited h.visits
    refine ⟨C, hrun, ?_⟩
    cases ho : op.overflowOp with
    | some o => exact Arith.exact_trap hvis hsz ho hops hr hws hfree
    | none =>
        have hdiv : op.divides = true := by
          rw [Arithop.divides, ho]
          rfl
        exact Arith.exact_div hvis hdiv hops hr hmin hfree

/-! ### A function with one operation -/

/-- A function that applies an operation to its arguments. -/
def arithFrag (op : Arithop) : Frag .cpp where
  kind := .con .STD_FUN
  lab := 0
  params := [⟨1, .TAGt⟩, ⟨2, .TAGt⟩, ⟨3, .PTRt⟩]
  body := .ARITH (.ARITH (.con op) 64) [.VAR 1, .VAR 2] ⟨4, .TAGt⟩
    (.APPLY (.VAR 3) [.VAR 4] [.TAGt])

/-- A call of the function with two numbers. -/
def arithArgs (x y : Word) : Activation Codegen.Sym where
  host := (floatArgs 0 0).host
  args := List.replicate 5 (some 0) ++ [some x, some y, some 0]

/-- The arguments are the operands. -/
theorem supplies_arithArgs {op : Arithop} {s : State}
    (hx : (bodyCtx arm64Info (arithFrag op)).vMap 1 = some (.arg 5 intTy))
    (hy : (bodyCtx arm64Info (arithFrag op)).vMap 2 = some (.arg 6 intTy)) (x y : Word) :
    Arith.Supplies (arithArgs x y) (bodyCtx arm64Info (arithFrag op)) s 64 [.VAR 1, .VAR 2]
      (signedOf 64 x) (signedOf 64 y) := by
  refine ⟨.arg 5 intTy, .arg 6 intTy, x, y, bodyCtx arm64Info (arithFrag op), s, ?_, .inl rfl, rfl, rfl,
    .inl rfl, rfl, rfl⟩
  simp only [Exp.codegenArgs, Exp.codegen, exec_bind]
  simp [exec, ask, deref, hx, hy, Pure.pure]

/-- Code generation comes to the operation. -/
theorem comes_arithFrag {op : Arithop} (hok : oneFragOk arm64Info (arithFrag op) = true) :
    Comes (oneFrag arm64Info (arithFrag op)) (Context.create arm64Info) [entryBB (arithFrag op)]
      (initCtx arm64Info (arithFrag op)) 0 (arithFrag op).body []
      (bodyCtx arm64Info (arithFrag op)) where
  inits := (clusterRun_oneFrag (by show Tagged.con FragKind.STD_FUN ≠ _; decide) hok).inits
  visits := visits_oneFrag hok
  rest _ _ := ⟨_, (clusterRun_oneFrag (by show Tagged.con FragKind.STD_FUN ≠ _; decide) hok).emits⟩

/-- `1 + 2` is `3`. -/
theorem exact_one_add_two :
    ∃ C, ClusterRun (oneFrag arm64Info (arithFrag .IADD)) (Context.create arm64Info) C
        [entryBB (arithFrag .IADD)] (initCtx arm64Info (arithFrag .IADD)) ∧
      Arith.Exact (arithArgs 1 2) (bodyCtx arm64Info (arithFrag .IADD)) C
        ⟨fun _ => [], fun _ => 0, []⟩ (fun _ => 0) 0 (arithFrag .IADD).body [] 64 ⟨4, .TAGt⟩ 3 := by
  have hok : oneFragOk arm64Info (arithFrag .IADD) = true := by decide +kernel
  have hregs : ∀ reg ∈ CMRegId.all,
      ((bodyCtx arm64Info (arithFrag .IADD)).regState.val reg).bind
        (·.eval (arithArgs 1 2) fun _ => []) = some 0 := by decide +kernel
  have hptrs : ∀ reg ∈ CMRegId.all,
      ((bodyCtx arm64Info (arithFrag .IADD)).regState.val reg).map (·.getType) = some ptrTy := by
    decide +kernel
  refine (Arith.exact_iff _ _ _ _ _ _ _ _ _ _ _ _ _ _ _ _ _ _ (comes_arithFrag hok) (.inr rfl)
    (supplies_arithArgs (by decide +kernel) (by decide +kernel) 1 2) rfl fun reg v hv => ?_).1.mpr
    ⟨fun hmin => absurd hmin.1 (by decide), fun _ => .inl (by decide +kernel),
      fun _ reg v hv => ?_⟩
  · have heval := hregs reg reg.mem_all
    rw [hv] at heval
    exact heval
  · have hty := hptrs reg reg.mem_all
    rw [hv] at hty
    exact Option.some.inj hty

/-- A function that makes a number the value of the variable register, and then adds its
arguments. -/
def setVarFrag : Frag .cpp where
  kind := .con .STD_FUN
  lab := 0
  params := [⟨1, .TAGt⟩, ⟨2, .TAGt⟩, ⟨3, .PTRt⟩]
  body := .SETTER .SET_VAR [.VAR 1] (.ARITH (.ARITH (.con .IADD) 64) [.VAR 1, .VAR 2] ⟨4, .TAGt⟩
    (.APPLY (.VAR 3) [.VAR 4] [.TAGt]))

/-- The quotient of the least number by `-1` is undefined, and control does not go
to the overflow block. And there is no code at all for an addition after a number became the
value of a register. -/
theorem not_exact_min_div_minus_one :
    Comes (oneFrag arm64Info (arithFrag .IDIV)) (Context.create arm64Info)
      [entryBB (arithFrag .IDIV)] (initCtx arm64Info (arithFrag .IDIV)) 0
      (arithFrag .IDIV).body [] (bodyCtx arm64Info (arithFrag .IDIV)) ∧
    Arith.Supplies (arithArgs 0x8000000000000000 0xffffffffffffffff)
      (bodyCtx arm64Info (arithFrag .IDIV)) ⟨fun _ => [], fun _ => 0, []⟩ 64 [.VAR 1, .VAR 2]
      (-2 ^ 63) (-1) ∧ Arithop.IDIV.denote (-2 ^ 63) (-1) = some (2 ^ 63) ∧
    ¬ Bits.Fits 64 (2 ^ 63) ∧
    (¬ ∃ C, ClusterRun (oneFrag arm64Info (arithFrag .IDIV)) (Context.create arm64Info) C
        [entryBB (arithFrag .IDIV)] (initCtx arm64Info (arithFrag .IDIV)) ∧
      Arith.Exact (arithArgs 0x8000000000000000 0xffffffffffffffff)
        (bodyCtx arm64Info (arithFrag .IDIV)) C ⟨fun _ => [], fun _ => 0, []⟩ (fun _ => 0) 0
        (arithFrag .IDIV).body [] 64 ⟨4, .TAGt⟩ (2 ^ 63)) ∧
    ¬ ∃ C, ClusterRun (oneFrag arm64Info setVarFrag) (Context.create arm64Info) C
      [entryBB setVarFrag] (initCtx arm64Info setVarFrag) := by
  have hok : oneFragOk arm64Info (arithFrag .IDIV) = true := by decide +kernel
  have hops : Arith.Supplies (arithArgs 0x8000000000000000 0xffffffffffffffff)
      (bodyCtx arm64Info (arithFrag .IDIV)) ⟨fun _ => [], fun _ => 0, []⟩ 64 [.VAR 1, .VAR 2]
      (-2 ^ 63) (-1) :=
    supplies_arithArgs (by decide +kernel) (by decide +kernel) _ _
  refine ⟨comes_arithFrag hok, hops, by decide, by decide, ?_, ?_⟩
  · rintro ⟨C, hrun, hexact⟩
    exact Arith.not_exact_min (hrun.visited (visits_oneFrag hok)) hops ⟨rfl, rfl, rfl⟩ hexact
  · rintro ⟨C, hrun⟩
    have hfails : (codegenFrags [entryBB setVarFrag] 0 (initCtx arm64Info setVarFrag)).isOk
        = false := by decide +kernel
    rw [show codegenFrags _ _ _ = _ from hrun.emits.codegen] at hfails
    cases hfails

end SmlnjCfg.CfgPrim
