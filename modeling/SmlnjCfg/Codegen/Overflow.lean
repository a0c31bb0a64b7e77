import SmlnjCfg.Codegen.Types

/-!
# `SmlnjCfg.Codegen.Overflow`: the test for overflow and the overflow block

An operation that may overflow ends the current block with a test of the overflow bit. The
test goes to the overflow block of the function, which is made when it is first needed, and to
a new block for what follows. This module says what each of the source's functions does to the
context when it succeeds, as an equation between contexts, so that no later proof has to run
them again.

* `newOverflowBB_ok`, `theOverflowBB_ok`: the overflow block is made once.
* `addOverflowIncoming_ok`, `addOverflowIncoming_runs`: the values of the registers come into
  its phi nodes, if they are pointers.
* `overflowBranch_ok`: the test, and the block after it.
* `CfgPrim.Arith.codegen_eq`: an `ARITH` in its parts, of which the test is the last one.
-/

set_option autoImplicit false

namespace SmlnjCfg.Codegen

open Cfg Gen

/-- Straight-line code generation composes. -/
theorem lift_bind {α β : Type} (x : Gen α) (f : α → Gen β) :
    (liftM (x >>= f) : CodegenM β) = liftM x >>= fun a => liftM (f a) := by
  funext c
  exact run_bind x f c

/-- Numbered instructions of a block. -/
def instsAt (b : BBId) (is : List (Nat × IR.Op Sym)) : List (BBId × IR.Inst BBId Sym) :=
  is.map fun p => (b, .op p.1 p.2)

/-- Straight-line code that keeps the registers changes nothing but the log. -/
theorem Gen.Plain.ext {α : Type} {g : Gen α} {c c' : Context} {a : α} (hg : g.Plain)
    (h : g.run c = .ok (a, c')) : ∃ is, c.nextId ≤ c'.nextId ∧
      c' = { c with
        nextId := c'.nextId
        memo := c'.memo
        body := { c.body with insts := c.body.insts ++ instsAt c.curBB is } } := by
  obtain ⟨is, hext⟩ := ext_of_run h
  refine ⟨is, hext.nextId_le, ?_⟩
  have hreg := (hg.sameEnv h).regState
  have hframe := hext.frame
  rw [hreg] at hframe
  exact hframe

/-- `createPHIs` for phi nodes of one type. -/
theorem createPHIs_replicate_ok (n : Nat) (ty : IR.Ty) (c : Context) :
    createPHIs (List.replicate n ty) c = .ok (List.range' c.nextId n, { c with
      nextId := c.nextId + n
      body := { c.body with phis := c.body.phis
        ++ (List.range' c.nextId n).map fun phi => (c.curBB, phi, ty) } }) := by
  have hzip : ∀ ids : List Nat, ids.zip (List.replicate ids.length ty) = ids.map (·, ty) := by
    intro ids
    induction ids with
    | nil => rfl
    | cons id ids ih => simp [List.replicate_succ, ih]
  have hids := hzip (List.range' c.nextId n)
  rw [List.length_range'] at hids
  rw [createPHIs_ok, List.length_replicate, hids, List.map_map]
  rfl

/-- The context in the overflow block, with its phi nodes. -/
def Context.inOverflowBB (c : Context) : Context :=
  { c with
    nextBB := c.nextBB + 1
    nextId := c.nextId + c.target.numMachineRegs
    curBB := .new c.nextBB
    overflowBB := some (.new c.nextBB)
    overflowPhiNodes := List.range' c.nextId c.target.numMachineRegs
    body := { c.body with
      blocks := c.body.blocks ++ [.new c.nextBB]
      phis := c.body.phis ++ (List.range' c.nextId c.target.numMachineRegs).map
        fun phi => (.new c.nextBB, phi, ptrTy) } }

/-- The overflow block fetches the address to raise, and calls it. -/
theorem newOverflowBB_run {c c' : Context} {bb : BBId} (h : newOverflowBB c = .ok (bb, c')) :
    bb = .new c.nextBB ∧ ∃ fn d,
      (loadFromStack c.target.raiseOvflwOffset >>= fun v => createBitCast v ptrTy).run
        c.inOverflowBB = .ok (fn, d) ∧
      c' = { ((d.append (.exitCall false fn ((List.range' c.nextId c.target.numMachineRegs).map
        fun phi => .inst phi ptrTy))).append (.term .retVoid)) with curBB := c.curBB } := by
  unfold newOverflowBB at h
  obtain ⟨srcBB, c₁, h₁, h⟩ := CodegenM.bind_ok.mp h
  cases h₁
  obtain ⟨t, c₁, h₁, h⟩ := CodegenM.bind_ok.mp h
  cases h₁
  obtain ⟨bb', c₁, h₁, h⟩ := CodegenM.bind_ok.mp h
  cases h₁
  obtain ⟨⟨⟩, c₁, h₁, h⟩ := CodegenM.bind_ok.mp h
  cases h₁
  obtain ⟨phis, c₁, h₁, h⟩ := CodegenM.bind_ok.mp h
  rw [createPHIs_replicate_ok] at h₁
  cases h₁
  obtain ⟨⟨⟩, c₁, h₁, h⟩ := CodegenM.bind_ok.mp h
  cases h₁
  obtain ⟨raiseFn, c₂, h₂, h⟩ := CodegenM.bind_ok.mp h
  obtain ⟨fn, c₃, h₃, h⟩ := CodegenM.bind_ok.mp h
  obtain ⟨⟨⟩, c₄, h₄, h⟩ := CodegenM.bind_ok.mp h
  cases h₄
  obtain ⟨⟨⟩, c₄, h₄, h⟩ := CodegenM.bind_ok.mp h
  cases h₄
  obtain ⟨⟨⟩, c₄, h₄, h⟩ := CodegenM.bind_ok.mp h
  cases h₄
  obtain ⟨rfl, rfl⟩ := CodegenM.pure_ok.mp h
  exact ⟨rfl, fn, c₃, run_bind_ok.mpr ⟨raiseFn, c₂, h₂, h₃⟩, rfl⟩

/-- The overflow block, when it is made. -/
theorem newOverflowBB_ok {c c' : Context} {bb : BBId} (h : newOverflowBB c = .ok (bb, c')) :
    bb = .new c.nextBB ∧ ∃ (is : List (Nat × IR.Op Sym)) (fn : Val),
      c.nextId + c.target.numMachineRegs ≤ c'.nextId ∧
      c' = { c with
        nextBB := c.nextBB + 1
        nextId := c'.nextId
        memo := c'.memo
        overflowBB := some bb
        overflowPhiNodes := List.range' c.nextId c.target.numMachineRegs
        body := { c.body with
          blocks := c.body.blocks ++ [bb]
          phis := c.body.phis
            ++ (List.range' c.nextId c.target.numMachineRegs).map fun phi => (bb, phi, ptrTy)
          insts := c.body.insts ++ instsAt bb is
            ++ [(bb, .exitCall false fn ((List.range' c.nextId c.target.numMachineRegs).map
                fun phi => .inst phi ptrTy)), (bb, .term .retVoid)] } } := by
  obtain ⟨rfl, fn, d, hrun, rfl⟩ := newOverflowBB_run h
  have hkeeps : (loadFromStack c.target.raiseOvflwOffset >>= fun v =>
      createBitCast v ptrTy).Plain :=
    .bind (.loadFromStack _) fun v => .createCast _ _ _
  obtain ⟨is, hle, hd⟩ := hkeeps.ext hrun
  refine ⟨rfl, is, fn, hle, ?_⟩
  rw [hd]
  simp [Context.append, Context.inOverflowBB]

/-- The values that come into the phi nodes of the overflow block. -/
theorem addOverflowIncoming_ok {srcBB : BBId} {rs : CMRegState} {phis : List Nat}
    {regs : List CMRegId} {c c' : Context}
    (h : addOverflowIncoming srcBB rs phis regs c = .ok ((), c')) :
    ∃ ics, c' = { c with body := { c.body with incoming := c.body.incoming ++ ics } } ∧
      List.Forall₂ (fun pr ic => ∃ v, rs.val pr.2 = some v ∧ v.getType = ptrTy ∧
        ic = (pr.1, v, srcBB)) (phis.zip regs) ics := by
  induction phis generalizing regs c with
  | nil =>
      obtain ⟨-, rfl⟩ := CodegenM.pure_ok.mp h
      exact ⟨[], by simp, .nil⟩
  | cons phi phis ih =>
      cases regs with
      | nil =>
          obtain ⟨-, rfl⟩ := CodegenM.pure_ok.mp h
          exact ⟨[], by simp, .nil⟩
      | cons r regs =>
          obtain ⟨v, c₁, h₁, h₂⟩ := CodegenM.bind_ok.mp h
          obtain ⟨hv, rfl⟩ := run_deref_ok.mp h₁
          obtain ⟨⟨⟩, c₂, h₃, h₄⟩ := CodegenM.bind_ok.mp h₂
          obtain ⟨hty, rfl⟩ := run_assert_ok.mp h₃
          obtain ⟨⟨⟩, c₃, h₅, h₆⟩ := CodegenM.bind_ok.mp h₄
          cases h₅
          obtain ⟨ics, rfl, hics⟩ := ih h₆
          exact ⟨(phi, v, srcBB) :: ics, by simp, .cons ⟨v, hv, by simpa using hty, rfl⟩ hics⟩

/-- The values come in if every register has one that is a pointer. -/
theorem addOverflowIncoming_runs (srcBB : BBId) {rs : CMRegState} (phis : List Nat)
    {regs : List CMRegId} (c : Context)
    (h : ∀ r ∈ regs, ∃ v, rs.val r = some v ∧ v.getType = ptrTy) :
    ∃ c', addOverflowIncoming srcBB rs phis regs c = .ok ((), c') := by
  induction phis generalizing regs c with
  | nil => exact ⟨c, rfl⟩
  | cons phi phis ih =>
      cases regs with
      | nil => exact ⟨c, rfl⟩
      | cons r regs =>
          obtain ⟨⟨v, hv, hty⟩, hregs⟩ := List.forall_mem_cons.mp h
          obtain ⟨c', hrest⟩ := ih { c with body := { c.body with
            incoming := c.body.incoming ++ [(phi, v, srcBB)] } } hregs
          refine ⟨c', ?_⟩
          refine CodegenM.bind_ok.mpr ⟨v, c, run_deref_ok.mpr ⟨hv, rfl⟩, ?_⟩
          refine CodegenM.bind_ok.mpr ⟨(), c, run_assert_ok.mpr ⟨by simpa using hty, rfl⟩, ?_⟩
          exact CodegenM.bind_ok.mpr ⟨(), _, rfl, hrest⟩

/-- The end of an operation that may overflow: a new block for what follows, and
the overflow block. -/
def overflowBranch (obit res : Val) : CodegenM Val := do
  let next ← newBB
  let ovflw ← getOverflowBB
  createTerm (.condBr obit ovflw next (some 1))
  setInsertPoint next
  return res

theorem overflowBranch_ok {obit res v : Val} {c c' : Context}
    (h : overflowBranch obit res c = .ok (v, c')) :
    v = res ∧ ∃ bb c₁ ics, theOverflowBB { c with
        nextBB := c.nextBB + 1
        body := { c.body with blocks := c.body.blocks ++ [.new c.nextBB] } } = .ok (bb, c₁) ∧
      c' = { c₁ with
        curBB := .new c.nextBB
        body := { c₁.body with
          insts := c₁.body.insts
            ++ [(c₁.curBB, .term (.condBr obit bb (.new c.nextBB) (some 1)))]
          incoming := c₁.body.incoming ++ ics } } ∧
      List.Forall₂ (fun pr ic => ∃ v, c₁.regState.val pr.2 = some v ∧ v.getType = ptrTy ∧
        ic = (pr.1, v, c.curBB)) (c₁.overflowPhiNodes.zip c₁.target.machineRegs) ics := by
  obtain ⟨next, c₁, h₁, h⟩ := CodegenM.bind_ok.mp h
  cases h₁
  obtain ⟨ovflw, c₂, h₂, h⟩ := CodegenM.bind_ok.mp h
  unfold getOverflowBB at h₂
  obtain ⟨srcBB, c₃, h₃, h₂⟩ := CodegenM.bind_ok.mp h₂
  cases h₃
  obtain ⟨bb, c₁, h₁, h₂⟩ := CodegenM.bind_ok.mp h₂
  obtain ⟨c₃, c₄, h₃, h₂⟩ := CodegenM.bind_ok.mp h₂
  cases h₃
  obtain ⟨⟨⟩, c₃, h₃, h₂⟩ := CodegenM.bind_ok.mp h₂
  obtain ⟨rfl, rfl⟩ := CodegenM.pure_ok.mp h₂
  obtain ⟨ics, rfl, hics⟩ := addOverflowIncoming_ok h₃
  obtain ⟨⟨⟩, c₄, h₄, h⟩ := CodegenM.bind_ok.mp h
  cases h₄
  obtain ⟨⟨⟩, c₄, h₄, h⟩ := CodegenM.bind_ok.mp h
  cases h₄
  obtain ⟨rfl, rfl⟩ := CodegenM.pure_ok.mp h
  exact ⟨rfl, ovflw, c₁, ics, h₁, rfl, hics⟩

/-- The overflow block is there already, or it is made. -/
theorem theOverflowBB_ok {c c' : Context} {bb : BBId} (h : theOverflowBB c = .ok (bb, c')) :
    c.overflowBB = some bb ∧ c' = c ∨ c.overflowBB = none ∧ newOverflowBB c = .ok (bb, c') := by
  unfold theOverflowBB at h
  obtain ⟨c₁, c₂, h₁, h⟩ := CodegenM.bind_ok.mp h
  cases h₁
  cases hbb : c.overflowBB with
  | some bb' =>
      rw [hbb] at h
      obtain ⟨rfl, rfl⟩ := CodegenM.pure_ok.mp h
      exact .inl ⟨rfl, rfl⟩
  | none =>
      rw [hbb] at h
      exact .inr ⟨rfl, h⟩


/-- What the test for overflow leaves alone. It adds instructions, phi nodes and blocks. -/
theorem overflowBranch_env {obit res v : Val} {c c' : Context}
    (h : overflowBranch obit res c = .ok (v, c')) :
    c'.target = c.target ∧ c.nextId ≤ c'.nextId ∧ c'.vMap = c.vMap ∧
      c'.regState = c.regState := by
  obtain ⟨-, bb, c₁, ics, hovflw, rfl, -⟩ := overflowBranch_ok h
  rcases theOverflowBB_ok hovflw with ⟨-, rfl⟩ | ⟨-, hnew⟩
  · exact ⟨rfl, Nat.le_refl _, rfl, rfl⟩
  · obtain ⟨-, is, fn, hle, hc₁⟩ := newOverflowBB_ok hnew
    have hle' : c.nextId + c.target.numMachineRegs ≤ c₁.nextId := hle
    refine ⟨by rw [hc₁], ?_, by rw [hc₁], by rw [hc₁]⟩
    show c.nextId ≤ c₁.nextId
    omega

theorem exists_left_of_mem {α β : Type} {R : α → β → Prop} {as : List α} {bs : List β}
    (h : List.Forall₂ R as bs) {b : β} (hb : b ∈ bs) : ∃ a, R a b := by
  induction h with
  | nil => cases hb
  | @cons a b' as bs hab _ ih =>
      rcases List.mem_cons.mp hb with rfl | hb
      · exact ⟨a, hab⟩
      · exact ih hb

end SmlnjCfg.Codegen

namespace SmlnjCfg.CfgPrim

open Codegen Gen

/-- The two operands of an `ARITH`. -/
def Arith.operands (sz : Int) (args : List Val) : Gen (Val × Val) := do
  assert (args.length = 2) "expected two arguments"
  let a ← asIntSz sz (← argAt args 0)
  let b ← asIntSz sz (← argAt args 1)
  pure (a, b)

/-- The operation that may overflow, with its result and its overflow bit. -/
def Arith.trapOp (op : IR.OverflowOp) (bits : Nat) (a b : Val) : Gen (Val × Val) := do
  let pair ← Gen.emit (.overflow op bits a b) Gen.ret
  let res ← inst (.extract pair 0) (.int bits)
  let obit ← inst (.extract pair 1) (.int 1)
  pure (res, obit)

/-- `ARITH::codegen` in its parts. -/
theorem Arith.codegen_eq (op : Arithop) (sz : Int) (args : List Val) :
    (Arith.ARITH (.con op) sz : Arith .cpp).codegen args
      = liftM (Arith.operands sz args) >>= fun p =>
        match op.overflowOp with
        | some o =>
            liftM (Arith.trapOp o (if sz = 32 then 32 else 64) p.1 p.2) >>= fun q =>
              overflowBranch q.2 q.1
        | none => liftM (createBin (if op = .IDIV then .sdiv else .srem) p.1 p.2) := by
  cases op <;> simp only [Arith.codegen, Arith.operands, Arith.trapOp, Arithop.overflowOp,
    overflowBranch, lift_bind, bind_assoc, Gen.deref] <;> rfl

end SmlnjCfg.CfgPrim
