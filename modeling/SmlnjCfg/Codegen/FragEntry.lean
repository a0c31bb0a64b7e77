import SmlnjCfg.Codegen.Head

/-!
# `SmlnjCfg.Codegen.FragEntry`: the registers at the start of a fragment

A fragment starts with the registers in places that its callers know. The entry of a cluster
finds those that live in machine registers among the arguments of the function, and the other
fragments find them among their phi nodes. A register on the stack has no value at the entry,
and code generation for a later fragment never gives it one.

* `setupRegs_val`, `setupPhiRegs_val`: the two loops that set the registers.
* `FragEntry`, `fragEntry_ok`: the registers after the start of any fragment.
-/

set_option autoImplicit false

namespace SmlnjCfg.Codegen

open Cfg Gen

/-- `setupRegs` gives every register an argument or no value. The arguments are counted from `i`
on, one for each machine register, and which of them a register gets is not said here: it is
enough that it is one of the first. -/
theorem setupRegs_val {regs : List CMRegId} {i : Nat} {c c' : Context}
    (h : setupRegs regs i c = .ok ((), c')) :
    c' = { c with regState := { c.regState with val := c'.regState.val } } ∧
    (∀ r ∈ regs, if c.target.isMachineReg r then
        ∃ k fn ty, k < i + (regs.filter c.target.isMachineReg).length ∧ c.curFn = some fn ∧
          fn.fnTy[k]? = some ty ∧ c'.regState.val r = some (.arg k ty)
      else c'.regState.val r = none) ∧
    ∀ r ∉ regs, c'.regState.val r = c.regState.val r := by
  induction regs generalizing i c with
  | nil =>
      obtain ⟨-, rfl⟩ := CodegenM.pure_ok.mp h
      exact ⟨rfl, fun r hr => absurd hr List.not_mem_nil, fun _ _ => rfl⟩
  | cons r regs ih =>
      obtain ⟨t, c₁, h₁, h₂⟩ := CodegenM.bind_ok.mp h
      cases h₁
      by_cases hr : c.target.isMachineReg r = true
      · rw [if_pos hr] at h₂
        obtain ⟨arg, c₁, h₃, h₄⟩ := CodegenM.bind_ok.mp h₂
        obtain ⟨rfl, fn, ty, hfn, hty, rfl⟩ := run_getArg.mp h₃
        obtain ⟨⟨⟩, c₂, h₅, h₆⟩ := CodegenM.bind_ok.mp h₄
        obtain ⟨hctx, hmem, hold⟩ := ih h₆
        cases h₅
        rw [List.filter_cons_of_pos hr, List.length_cons]
        refine ⟨hctx, fun r' hr' => ?_, fun r' hr' => ?_⟩
        -- The rest of the list may set the register again, and what it sets counts.
        · by_cases hin : r' ∈ regs
          · have hr'' := hmem r' hin
            by_cases hm : c₁.target.isMachineReg r' = true
            · rw [if_pos hm] at hr'' ⊢
              obtain ⟨k, fn, ty, hk, hrest⟩ := hr''
              have hlt : k < i + 1 + (regs.filter c₁.target.isMachineReg).length := hk
              exact ⟨k, fn, ty, by omega, hrest⟩
            · rw [if_neg hm] at hr'' ⊢
              exact hr''
          · obtain rfl : r' = r := (List.mem_cons.mp hr').resolve_right hin
            rw [if_pos hr]
            exact ⟨i, fn, ty, by omega, hfn, hty, (hold r' hin).trans (CMRegState.set_val_self _ _ _)⟩
        · rw [List.mem_cons, not_or] at hr'
          exact (hold r' hr'.2).trans (CMRegState.set_val_of_ne _ _ hr'.1)
      · rw [if_neg hr] at h₂
        obtain ⟨⟨⟩, c₂, h₅, h₆⟩ := CodegenM.bind_ok.mp h₂
        obtain ⟨hctx, hmem, hold⟩ := ih h₆
        cases h₅
        -- A register on the stack takes no argument, so the count stays the same.
        rw [List.filter_cons_of_neg hr]
        refine ⟨hctx, fun r' hr' => ?_, fun r' hr' => ?_⟩
        · by_cases hin : r' ∈ regs
          · exact hmem r' hin
          · obtain rfl : r' = r := (List.mem_cons.mp hr').resolve_right hin
            rw [if_neg hr]
            exact (hold r' hin).trans (CMRegState.set_val_self _ _ _)
        · rw [List.mem_cons, not_or] at hr'
          exact (hold r' hr'.2).trans (CMRegState.set_val_of_ne _ _ hr'.1)

/-- `setupPhiRegs` gives every register one of the first phi nodes. The list is that of the
machine registers alone, so a register on the stack keeps what it has. -/
theorem setupPhiRegs_val {phis : List (Nat × IR.Ty)} {regs : List CMRegId} {i : Nat}
    {c c' : Context} (h : setupPhiRegs phis regs i c = .ok ((), c')) :
    c' = { c with regState := { c.regState with val := c'.regState.val } } ∧
    (∀ r ∈ regs, ∃ k p, k < i + regs.length ∧ phis[k]? = some p ∧
      c'.regState.val r = some (.inst p.1 p.2)) ∧
    ∀ r ∉ regs, c'.regState.val r = c.regState.val r := by
  induction regs generalizing i c with
  | nil =>
      obtain ⟨-, rfl⟩ := CodegenM.pure_ok.mp h
      exact ⟨rfl, fun r hr => absurd hr List.not_mem_nil, fun _ _ => rfl⟩
  | cons r regs ih =>
      obtain ⟨v, c₁, h₁, h₂⟩ := CodegenM.bind_ok.mp h
      obtain ⟨rfl, p, hp, rfl⟩ := run_phiAt.mp h₁
      obtain ⟨⟨⟩, c₂, h₃, h₄⟩ := CodegenM.bind_ok.mp h₂
      obtain ⟨hctx, hmem, hold⟩ := ih h₄
      cases h₃
      rw [List.length_cons]
      refine ⟨hctx, fun r' hr' => ?_, fun r' hr' => ?_⟩
      · by_cases hin : r' ∈ regs
        · obtain ⟨k, q, hk, hrest⟩ := hmem r' hin
          exact ⟨k, q, by omega, hrest⟩
        · obtain rfl : r' = r := (List.mem_cons.mp hr').resolve_right hin
          exact ⟨i, p, by omega, hp, (hold r' hin).trans (CMRegState.set_val_self _ _ _)⟩
      · rw [List.mem_cons, not_or] at hr'
        exact (hold r' hr'.2).trans (CMRegState.set_val_of_ne _ _ hr'.1)

/-- The start of a fragment has gone on from `c` to `c'` without setting a register. It may have
bound parameters, and read the base pointer. -/
structure SameRegs (c c' : Context) : Prop where
  target : c'.target = c.target
  curFn : c'.curFn = c.curFn
  val : c'.regState.val = c.regState.val
  nextId_le : c.nextId ≤ c'.nextId

namespace SameRegs

/-- Nothing has happened yet. -/
theorem refl (c : Context) : SameRegs c c := ⟨rfl, rfl, rfl, Nat.le_refl _⟩

/-- Two stretches without a register. -/
theorem trans {c c₁ c' : Context} (h : SameRegs c c₁) (h' : SameRegs c₁ c') : SameRegs c c' :=
  ⟨h'.target.trans h.target, h'.curFn.trans h.curFn, h'.val.trans h.val,
    Nat.le_trans h.nextId_le h'.nextId_le⟩

/-- Code that only computes sets no register. -/
theorem of_plain {α : Type} {g : Gen α} {c c' : Context} {a : α} (hg : g.Plain)
    (h : g.run c = .ok (a, c')) : SameRegs c c' := by
  obtain ⟨is, hext⟩ := ext_of_run h
  have henv := (hg.sameEnv h).ctx
  exact ⟨by rw [henv], by rw [henv], by rw [henv], hext.nextId_le⟩

/-- Parameters are bound without a change to the registers or the base pointer. -/
theorem bindParams {val : Nat → Gen Val} (hval : ∀ k, (val k).Plain) {ps : List Param} {i : Nat}
    {c c' : Context} (h : bindParams val ps i c = .ok ((), c')) :
    SameRegs c c' ∧ c'.regState = c.regState := by
  induction ps generalizing i c with
  | nil =>
      obtain ⟨-, rfl⟩ := CodegenM.pure_ok.mp h
      exact ⟨.refl _, rfl⟩
  | cons p ps ih =>
      obtain ⟨v, c₁, h₁, h₂⟩ := CodegenM.bind_ok.mp h
      obtain ⟨⟨⟩, c₂, h₃, h₄⟩ := CodegenM.bind_ok.mp h₂
      cases h₃
      have henv := ((hval i).sameEnv h₁).ctx
      obtain ⟨hrest, hregs⟩ := ih h₄
      refine ⟨(of_plain (hval i) h₁).trans ⟨hrest.target, hrest.curFn, hrest.val,
        hrest.nextId_le⟩, hregs.trans ?_⟩
      show c₁.regState = c.regState
      rw [henv]

end SameRegs

/-- Taking an argument is no code. -/
theorem plain_getArg (k : Nat) : (getArg k).Plain :=
  .bind (.ask _) fun _ => .bind (.deref _ _) fun _ => .bind (.deref _ _) fun _ => .pure _

/-- Nor is taking a phi node. -/
theorem plain_phiAt (phis : List (Nat × IR.Ty)) (k : Nat) : (phiAt phis k).Plain :=
  .bind (.deref _ _) fun _ => .pure _

/-- The registers at the start of a fragment, which is the entry if `i` is zero. A machine
register has one of the first arguments or phi nodes, and a register on the stack has no value at
the entry and is left alone elsewhere. -/
structure FragEntry (i : Nat) (f : FragBB) (c c' : Context) : Prop where
  target : c'.target = c.target
  machine : ∀ r, c.target.isMachineReg r = true →
    (i = 0 ∧ ∃ k fn ty, k < c.target.numMachineRegs ∧ c.curFn = some fn ∧
      fn.fnTy[k]? = some ty ∧ c'.regState.val r = some (.arg k ty)) ∨
    0 < i ∧ f.frag.kind = .con .INTERNAL ∧ ∃ k p, k < c.target.numMachineRegs ∧
      f.phiNodes[k]? = some p ∧ c'.regState.val r = some (.inst p.1 p.2)
  stack : ∀ r, c.target.isMachineReg r = false →
    i = 0 ∧ c'.regState.val r = none ∨ 0 < i ∧ c'.regState.val r = c.regState.val r
  /-- The entry sets the base pointer or clears it, and an internal fragment that needs none
  leaves the one that it finds. -/
  basePtr : ∀ v, c'.regState.basePtr = some v →
    f.EntryVal c c'.nextId v ∨ 0 < i ∧ c.regState.basePtr = some v

/-- The base pointer of a function comes from one of its arguments, as an integer: it is the
argument or the result of a cast of it. -/
theorem setupBasePtr_regs {frag : Frag .cpp} {c c' : Context}
    (h : setupBasePtr frag c = .ok ((), c')) : SameRegs c c' ∧
      ∀ v, c'.regState.basePtr = some v →
        (∀ id ty, v ≠ .inst id ty) ∨ ∃ ty, v = .inst c.nextId ty ∧ c.nextId < c'.nextId := by
  obtain ⟨c₁, c₂, h₁, h₂⟩ := CodegenM.bind_ok.mp h
  cases h₁
  split at h₂
  · obtain ⟨arg, c₂, h₃, h₄⟩ := CodegenM.bind_ok.mp h₂
    obtain ⟨basePtr, c₃, h₅, h₆⟩ := CodegenM.bind_ok.mp h₄
    cases h₆
    have hrun := (SameRegs.of_plain (plain_getArg _) h₃).trans (.of_plain (.createCast _ _ _) h₅)
    refine ⟨⟨hrun.target, hrun.curFn, hrun.val, hrun.nextId_le⟩, fun v hv => ?_⟩
    obtain rfl : basePtr = v := Option.some.inj hv
    obtain ⟨rfl, fn, ty, -, -, rfl⟩ := run_getArg.mp h₃
    rw [CodegenM.lift_ok, createPtrToInt, run_createCast] at h₅
    split at h₅
    · cases h₅
      exact .inl fun _ _ => nofun
    · cases h₅
      exact .inr ⟨_, rfl, Nat.lt_succ_self _⟩
  · cases h₂
    exact ⟨⟨rfl, rfl, rfl, Nat.le_refl _⟩, nofun⟩

/-- The entry of a cluster: registers, then the base pointer, then the parameters. -/
theorem setupStdEntry_regs {f : FragBB} {c c' : Context}
    (h : setupStdEntry f.frag c = .ok ((), c')) : FragEntry 0 f c c' := by
  obtain ⟨info, c₁, h₁, h₂⟩ := CodegenM.bind_ok.mp h
  obtain ⟨⟨⟩, c₂, h₃, h₄⟩ := CodegenM.bind_ok.mp h₂
  obtain ⟨⟨⟩, c₃, h₅, h₆⟩ := CodegenM.bind_ok.mp h₄
  have hinfo := SameRegs.of_plain (.getArgInfo _) h₁
  obtain ⟨hctx, hall, -⟩ := setupRegs_val h₃
  have htarget : c₂.target = c₁.target := by rw [hctx]
  have hid : c₂.nextId = c₁.nextId := by rw [hctx]
  obtain ⟨hbase, hbasePtr⟩ := setupBasePtr_regs h₅
  obtain ⟨hparams, hregs⟩ := SameRegs.bindParams plain_getArg h₆
  have hend := hbase.trans hparams
  refine ⟨hend.target.trans (htarget.trans hinfo.target), fun r hr => .inl ⟨rfl, ?_⟩,
    fun r hr => .inl ⟨rfl, ?_⟩, fun v hv => .inl ?_⟩
  · have hreg := hall r r.mem_all
    rw [hinfo.target, if_pos hr, hinfo.curFn] at hreg
    obtain ⟨k, fn, ty, hk, hfn, hty, hval⟩ := hreg
    rw [Nat.zero_add] at hk
    exact ⟨k, fn, ty, hk, hfn, hty, by rw [hend.val]; exact hval⟩
  · have hreg := hall r r.mem_all
    rw [hinfo.target, if_neg (by simp [hr])] at hreg
    rw [hend.val]
    exact hreg
  · have hlo := hinfo.nextId_le
    have hhi := hparams.nextId_le
    rw [hregs] at hv
    obtain hother | ⟨ty, rfl, hlt⟩ := hbasePtr v hv
    · exact .other hother
    · exact .result (by omega) (by omega)

/-- An internal fragment, in the same order. A base pointer that it does not need stays as it
is. -/
theorem setupFragEntry_regs {f : FragBB} {i : Nat} (hi : 0 < i) {c c' : Context}
    (h : setupFragEntry f.frag f.phiNodes c = .ok ((), c')) : FragEntry i f c c' := by
  obtain ⟨⟨⟩, c₀, h₀, h₁⟩ := CodegenM.bind_ok.mp h
  obtain ⟨hkind, rfl⟩ := run_assert_ok.mp h₀
  obtain ⟨info, c₁, h₁', h₂⟩ := CodegenM.bind_ok.mp h₁
  obtain ⟨c₁', c₂, h₃, h₄⟩ := CodegenM.bind_ok.mp h₂
  cases h₃
  obtain ⟨⟨⟩, c₂, h₃, h₅⟩ := CodegenM.bind_ok.mp h₄
  obtain ⟨⟨⟩, c₃, h₆, h₇⟩ := CodegenM.bind_ok.mp h₅
  have hinfo := SameRegs.of_plain (.getArgInfo _) h₁'
  have henv := ((Gen.Plain.getArgInfo f.frag.kind).sameEnv h₁').ctx
  obtain ⟨hctx, hmem, hold⟩ := setupPhiRegs_val h₃
  have htarget : c₂.target = c₁.target := by rw [hctx]
  have hbase₂ : c₂.regState.basePtr = c₀.regState.basePtr := by rw [hctx, henv]
  have hbase : SameRegs c₂ c₃ ∧ ∀ v, c₃.regState.basePtr = some v →
      (∃ p ∈ f.phiNodes, v = .inst p.1 p.2) ∨ c₂.regState.basePtr = some v := by
    -- With a base pointer, it is the phi node after those of the registers.
    unfold setupPhiBase at h₆
    split at h₆
    · obtain ⟨basePtr, c₄, h₈, h₉⟩ := CodegenM.bind_ok.mp h₆
      cases h₉
      have hrun := SameRegs.of_plain (plain_phiAt _ _) h₈
      refine ⟨⟨hrun.target, hrun.curFn, hrun.val, hrun.nextId_le⟩, fun v hv => .inl ?_⟩
      obtain rfl : basePtr = v := Option.some.inj hv
      obtain ⟨-, p, hp, rfl⟩ := run_phiAt.mp h₈
      exact ⟨p, List.mem_of_getElem? hp, rfl⟩
    · obtain ⟨-, rfl⟩ := CodegenM.pure_ok.mp h₆
      exact ⟨.refl _, fun _ => .inr⟩
  obtain ⟨hparams, hregs⟩ := SameRegs.bindParams (plain_phiAt _) h₇
  have hend := hbase.1.trans hparams
  refine ⟨hend.target.trans (htarget.trans hinfo.target), fun r hr => .inr ⟨hi, ?_⟩,
    fun r hr => .inr ⟨hi, ?_⟩, fun v hv => ?_⟩
  · rw [hinfo.target] at hmem
    obtain ⟨k, p, hk, hp, hval⟩ := hmem r (TargetInfo.mem_machineRegs.mpr hr)
    rw [Nat.zero_add] at hk
    exact ⟨by simpa using hkind, k, p, hk, hp, by rw [hend.val]; exact hval⟩
  · rw [hinfo.target] at hold
    rw [hend.val, hold r (by rw [TargetInfo.mem_machineRegs]; simp [hr]), hinfo.val]
  · rw [hregs] at hv
    obtain hphi | hkeep := hbase.2 v hv
    · exact .inl (.given hphi)
    · exact .inr ⟨hi, hbase₂ ▸ hkeep⟩

/-- The registers at the start of a fragment, of either kind. -/
theorem fragEntry_ok {i : Nat} {f : FragBB} {c c' : Context}
    (h : fragStart i f c = .ok ((), c')) : FragEntry i f c c' := by
  obtain ⟨⟨⟩, c₁, h₁, h₂⟩ := CodegenM.bind_ok.mp h
  cases h₁
  cases i with
  | zero =>
      have he := setupStdEntry_regs h₂
      exact ⟨he.target, he.machine, he.stack, he.basePtr⟩
  | succ i =>
      have hi : (i + 1 == 0) = false := rfl
      simp only [hi, Bool.false_eq_true, if_false] at h₂
      have he := setupFragEntry_regs (Nat.succ_pos i) h₂
      exact ⟨he.target, he.machine, he.stack, he.basePtr⟩

end SmlnjCfg.Codegen
