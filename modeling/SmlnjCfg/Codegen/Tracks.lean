import SmlnjCfg.Cfg.Machine
import SmlnjCfg.Codegen.Fresh

/-!
# `SmlnjCfg.Codegen.Tracks`: values of the machine and values of the code

When code is generated and executed, every variable of the machine has a value of
the code generator, and every register that lives in a machine register is cached in
one. `Tracks` says that these hold the words of the machine, and that the memories
agree. Here are the rules for reading and writing variables, registers and memory.

* `Holds`: a value of the code generator holds a value of the machine.
* `Tracks`: all of them do.
* `Exp.does_eval`: the code of an expression computes its value.
-/

set_option autoImplicit false

namespace SmlnjCfg.Codegen

open Cfg Gen IR

/-! ### The relation -/

/-- `u` is computed, and holds the word of `v` in its representation: a native integer is an `i64`
in the code, and an ML value is a pointer, whatever it stands for. -/
structure Holds (act : Activation Sym) (c : Context) (s : State) (u : Val) (v : MLVal) : Prop where
  is : Is act c s u v.word
  getType : u.getType = if v.isInt then intTy else ptrTy

namespace Holds

variable {act : Activation Sym} {c : Context} {s : State} {u : Val} {v : MLVal} {w : Word}

/-- A value goes on holding what it holds when more code is executed. -/
theorem later {c' : Context} {s' : State} (h : Holds act c s u v) (hl : Later c c' s s') :
    Holds act c' s' u v := ⟨h.is.later hl, h.getType⟩

/-- A word in an integer is a native integer. -/
theorem ofInt (h : Is act c s u w) (hty : u.getType = intTy) : Holds act c s u (.int w) := ⟨h, hty⟩

/-- A word in a pointer is an ML value. -/
theorem ofPtr (h : Is act c s u w) (hty : u.getType = ptrTy) : Holds act c s u (.ml w) := ⟨h, hty⟩

/-- A native integer is held by an integer only. -/
theorem int (h : Holds act c s u v) (hv : v.isInt = true) : u.getType = intTy := by
  rw [h.getType, if_pos hv]

/-- An ML value is held by a pointer only. -/
theorem ptr (h : Holds act c s u v) (hv : v.isInt = false) : u.getType = ptrTy := by
  rw [h.getType, if_neg (by simp [hv])]

/-- There are the two representations and no other. -/
theorem cases (h : Holds act c s u v) : u.getType = intTy ∨ u.getType = ptrTy := by
  cases hv : v.isInt with
  | true => exact .inl (h.int hv)
  | false => exact .inr (h.ptr hv)

/-- Either of them can be an operand of integer arithmetic, after a cast. -/
theorem like (h : Holds act c s u v) : IntLike 64 u := h.cases.imp id fun hty => ⟨hty, rfl⟩

/-- And either of them can be stored by `createStoreML`, which asserts this. -/
theorem ptrOrInt (h : Holds act c s u v) : u.getType = ptrTy ∨ u.getType.isIntegerTy = true := by
  rcases h.cases with hty | hty
  · rw [hty]
    exact .inr rfl
  · exact .inl hty

/-- A value takes a word in memory. -/
theorem bytes (h : Holds act c s u v) : u.getType.bytes = 8 := by
  rcases h.cases with hty | hty <;> rw [hty] <;> rfl

/-- A word operand of the arithmetic. -/
theorem operand (h : Holds act c s u v) : Operand act c s u 64 v.word :=
  ⟨v.word, h.is, BitVec.setWidth_eq _, h.cases⟩

end Holds

/-- The cluster `cf` with the entry fragment `f` is known as `lab`. Both names of its function,
the alias for the address that code is compared and stored with and the function that is called,
have the addresses that the machine has for the label. -/
structure Exports (act : Activation Sym) (M : Machine) (lab : LVar) (f : Frag .cpp)
    (cf : ClusterFn) : Prop where
  entry : cf.cluster.frags.head? = some f
  fnTy : ∃ kind, f.kind = .con kind ∧
    cf.fn.fnTy = paramTysOf (argInfo M.target cf.cluster.attrs.needsBasePtr kind) ++ userTys f
  label : act.host.addr (.alias cf.fn.name) = M.label lab
  code : act.host.addr (.fn cf.fn.name) = M.code lab

/-- What the machine runs on is what the code runs on: the same target, stack, collector and
promised memory, and each cluster that the machine can enter is one that the code generator
knows. -/
structure Linked (act : Activation Sym) (M : Machine) (c : Context) : Prop where
  target : c.target = M.target
  pcRel : M.target.hasPCRel = true
  sp : act.host.sp = M.sp
  call : act.host.call = M.call
  fixed : act.host.fixed = M.fixed
  clusters : ∀ lab f, M.entry lab = some f →
    ∃ cf, c.clusterMap lab = some cf ∧ Exports act M lab f cf

/-- The clusters are known from the start and do not change. -/
theorem Linked.of_eq {act : Activation Sym} {M : Machine} {c c' : Context} (h : Linked act M c)
    (ht : c'.target = c.target) (hm : c'.clusterMap = c.clusterMap) : Linked act M c' :=
  ⟨ht.trans h.target, h.pcRel, h.sp, h.call, h.fixed, fun lab f hf => hm ▸ h.clusters lab f hf⟩

/-- At the context `c` and the state `s` of the code, the variables have the values `ρ`, and the
state of the machine is `σ`. Variables that the machine has no value for may have one in the
code. A register that is on the stack has no value in the context, and what it holds is in the
memory. -/
structure Tracks (act : Activation Sym) (M : Machine) (ρ : Env) (σ : MState) (c : Context)
    (s : State) : Prop where
  linked : Linked act M c
  env : ∀ x v, ρ x = some v → ∃ u, c.vMap x = some u ∧ Holds act c s u v
  reg : ∀ r, M.target.isMachineReg r = true →
    ∃ u, c.regState.val r = some u ∧ Holds act c s u (.ml (σ.reg r))
  stack : ∀ r, M.target.isMachineReg r = false → c.regState.val r = none
  mem : s.mem = σ.mem
  trace : s.trace = σ.trace

namespace Tracks

variable {act : Activation Sym} {M : Machine} {ρ : Env} {σ : MState} {c : Context} {s : State}

/-- Code that only computes. -/
theorem quiet {c' : Context} {s' : State} (h : Tracks act M ρ σ c s) (hq : Quiet c c' s s') :
    Tracks act M ρ σ c' s' where
  linked := h.linked.of_eq hq.target (by rw [hq.ctx])
  env x v hv := by
    obtain ⟨u, hu, hv⟩ := h.env x v hv
    exact ⟨u, hq.vMap ▸ hu, hv.later hq.toLater⟩
  reg r hr := by
    obtain ⟨u, hu, hv⟩ := h.reg r hr
    exact ⟨u, hq.regState ▸ hu, hv.later hq.toLater⟩
  stack r hr := hq.regState ▸ h.stack r hr
  mem := hq.mem.trans h.mem
  trace := hq.trace.trans h.trace

/-- A load gives the same word on both sides, since the memories are equal. -/
theorem load (h : Tracks act M ρ σ c s) (a : Word) : s.load a 8 = σ.load a := by
  rw [State.load, h.mem, MState.load]

/-- A stack slot has the same address on both sides. -/
theorem slot (h : Tracks act M ρ σ c s) (off : Int) :
    act.host.sp + BitVec.ofInt 64 off = M.slot off := by
  rw [h.linked.sp, Machine.slot]

end Tracks

/-! ### Reading and writing -/

namespace Gen.Does

variable {act : Activation Sym} {M : Machine} {ρ : Env} {σ : MState} {c : Context} {s : State}

/-- An address, which is computed from a word and an integer index. The index counts elements, and
the product is taken modulo the size of a word, as everywhere. -/
theorem gepWord {elem : IR.Ty} {base idx : Val} {x i : Word} {Q : Val → Context → State → Prop}
    (hb : Is act c s base x) (hty : base.getType = ptrTy) (hi : Is act c s idx i)
    (hti : idx.getType = intTy)
    (h : ∀ v' c' s', Quiet c c' s s' →
      Is act c' s' v' (x + i * BitVec.ofNat 64 elem.bytes) → v'.getType = ptrTy → Q v' c' s') :
    (Gen.inst (.gep elem base idx) ptrTy).Does act c s Q := by
  refine inst ?_ ?_ h
  · simp [Op.wellTyped, hty, hti, Ty.isPointerTy, Ty.isIntegerTy]
  · have hgep : gepEval elem 64 x i = x + i * BitVec.ofNat 64 elem.bytes := by
      rw [gepEval, BitVec.setWidth_eq, BitVec.signExtend_eq]
    simp [Op.step, hb.eval, hi.eval, hti, Ty.bits, hgep]

/-- `createGEP` of a value of a type, the base of which may be in an integer. -/
theorem createGEPTy {elem : IR.Ty} {base idx : Val} {v : MLVal} {i : Word}
    {Q : Val → Context → State → Prop} (hb : Holds act c s base v) (hi : Is act c s idx i)
    (hti : idx.getType = intTy)
    (h : ∀ v' c' s', Quiet c c' s s' →
      Is act c' s' v' (v.word + i * BitVec.ofNat 64 elem.bytes) → v'.getType = ptrTy →
      Q v' c' s') : (Codegen.createGEPTy elem base idx).Does act c s Q := by
  refine bind (asPtr hb.is hb.ptrOrInt fun base' c₁ s₁ hq hb' hty' => ?_)
  exact gepWord hb' hty' (hi.later hq.toLater) hti fun v' c' s' hq' hv ht =>
    h v' c' s' (hq.trans hq') hv ht

/-- A load of a word, which may be read as an ML value or as an integer. -/
theorem loadWord {ty : IR.Ty} {adr : Val} {align : Nat} {a : Word}
    {Q : Val → Context → State → Prop} (ht : Tracks act M ρ σ c s) (ha : Is act c s adr a)
    (hta : adr.getType = ptrTy) (hbytes : ty.bytes = 8)
    (h : ∀ v' c' s', Quiet c c' s s' → Is act c' s' v' (σ.load a) → v'.getType = ty →
      Q v' c' s') : (Gen.inst (.load ty adr align) ty).Does act c s Q := by
  refine inst ?_ ?_ h
  · simp [Op.wellTyped, hta, Ty.isPointerTy]
  · simp [Op.step, ha.eval, hbytes, ht.load]

/-- The value of a register: the one it is cached in, or what is in its stack slot. -/
theorem readReg {r : CMRegId} {Q : Val → Context → State → Prop} (ht : Tracks act M ρ σ c s)
    (h : ∀ v' c' s', Quiet c c' s s' → Holds act c' s' v' (.ml (M.getReg σ r)) → Q v' c' s') :
    (Codegen.mlReg r).Does act c s Q := by
  refine bind (ask ?_)
  -- The machine asks where the register lives, and the code generator whether it has a value for
  -- it.
  cases hr : M.target.isMachineReg r with
  | true =>
      obtain ⟨u, hu, hv⟩ := ht.reg r hr
      rw [hu]
      refine pure (h u c s (.refl c s) ?_)
      rwa [Machine.getReg, if_pos hr]
  | false =>
      rw [ht.stack r hr]
      refine bind (ask (bind (stkAddr fun adr c₁ s₁ hq₁ hadr hta => ?_)))
      rw [ht.linked.target, ht.slot] at hadr
      refine loadWord (ht.quiet hq₁) hadr hta rfl fun v' c' s' hq hv htv => ?_
      refine h v' c' s' (hq₁.trans hq) (.ofPtr ?_ htv)
      rw [Machine.getReg, if_neg (by simp [hr])]
      exact hv

/-- A store of a word. It goes to the memory and the trace of both sides; the address is not
looked at, so it may well be one that other code reads. -/
theorem storeWord {v adr : Val} {align : Nat} {w : MLVal} {a : Word}
    {Q : Unit → Context → State → Prop} (ht : Tracks act M ρ σ c s) (hv : Holds act c s v w)
    (ha : Is act c s adr a) (hta : adr.getType = ptrTy)
    (h : ∀ c' s', Later c c' s s' → Tracks act M ρ (σ.store a w.word) c' s' → Q () c' s') :
    (Gen.inst_ (.store v adr align)).Does act c s Q := by
  refine store_ hv.is ha hta fun c' s' hs => h c' s' hs.toLater ?_
  have hctx := hs.ctx
  refine ⟨ht.linked.of_eq (by rw [hctx]) (by rw [hctx]), fun x u hu => ?_, fun r hr => ?_,
    fun r hr => ?_, ?_, ?_⟩
  · obtain ⟨u', hu', hv'⟩ := ht.env x u hu
    exact ⟨u', by rw [hctx]; exact hu', hv'.later hs.toLater⟩
  · obtain ⟨u, hu, hv'⟩ := ht.reg r hr
    exact ⟨u, by rw [hctx]; exact hu, hv'.later hs.toLater⟩
  · rw [hctx]
    exact ht.stack r hr
  · rw [hs.mem, hv.bytes, ht.mem]
    rfl
  · rw [hs.trace, hv.bytes, ht.trace]
    rfl

/-- `createStoreML`, which casts the address to a pointer and takes a value in either
representation. -/
theorem storeML {v adr : Val} {w a : MLVal} {Q : Unit → Context → State → Prop}
    (ht : Tracks act M ρ σ c s) (hv : Holds act c s v w) (ha : Holds act c s adr a)
    (h : ∀ c' s', Later c c' s s' → Tracks act M ρ (σ.store a.word w.word) c' s' → Q () c' s') :
    (Codegen.createStoreML v adr).Does act c s Q := by
  refine bind (asPtr hv.is hv.ptrOrInt fun v' c₁ s₁ hq₁ hv' htv' => ?_)
  refine bind (asPtr (ha.is.later hq₁.toLater) ha.ptrOrInt fun adr' c₂ s₂ hq₂ ha' hta' => ?_)
  have hq := hq₁.trans hq₂
  exact storeWord (w := .ml w.word) (ht.quiet hq) (.ofPtr (hv'.later hq₂.toLater) htv') ha' hta'
    fun c' s' hl ht' => h c' s' (hq.toLater.trans hl) ht'

/-- A new value for a register, which is an ML value. On the stack it is a store to the slot, and
otherwise the context changes and no code is generated. -/
theorem writeReg {r : CMRegId} {v : Val} {w : Word} {Q : Unit → Context → State → Prop}
    (ht : Tracks act M ρ σ c s) (hv : Holds act c s v (.ml w))
    (h : ∀ c' s', Later c c' s s' → Tracks act M ρ (M.setReg σ r w) c' s' → Q () c' s') :
    (Codegen.setMLReg r v).Does act c s Q := by
  refine bind (ask ?_)
  cases hr : M.target.isMachineReg r with
  | false =>
      rw [ht.stack r hr]
      refine bind (ask (bind (stkAddr fun adr c₁ s₁ hq₁ hadr hta => ?_)))
      rw [ht.linked.target, ht.slot] at hadr
      refine storeWord (ht.quiet hq₁) (hv.later hq₁.toLater) hadr hta fun c' s' hl ht' => ?_
      refine h c' s' (hq₁.toLater.trans hl) ?_
      rw [Machine.setReg, if_neg (by simp [hr])]
      exact ht'
  | true =>
      obtain ⟨u, hu, -⟩ := ht.reg r hr
      rw [hu]
      refine ⟨(), c.setReg r v, s, rfl, h _ _ ⟨Nat.le_refl _, fun _ _ => rfl⟩ ?_⟩
      rw [Machine.setReg, if_pos hr]
      have hself : (c.setReg r v).regState.val r = some v := by
        simp [Context.setReg, hu]
      have hother : ∀ r', r' ≠ r → (c.setReg r v).regState.val r' = c.regState.val r' := by
        intro r' hr'
        simp [Context.setReg, CMRegState.set_val_of_ne _ _ hr']
      refine ⟨ht.linked.of_eq rfl rfl, fun x u' hu' => ?_, fun r' hr' => ?_, fun r' hr' => ?_,
        ht.mem, ht.trace⟩
      · obtain ⟨u₁, hu₁, hv₁⟩ := ht.env x u' hu'
        exact ⟨u₁, hu₁, ⟨hv₁.is.below, hv₁.is.eval⟩, hv₁.getType⟩
      -- The register itself, or another one of those that are cached.
      · by_cases heq : r' = r
        · subst heq
          refine ⟨v, hself, ⟨hv.is.below, ?_⟩, hv.getType⟩
          simp only [Function.update_self]
          exact hv.is.eval
        · obtain ⟨u', hu', hv'⟩ := ht.reg r' hr'
          refine ⟨u', (hother r' heq).trans hu', ⟨hv'.is.below, ?_⟩, hv'.getType⟩
          simp only [Function.update_of_ne heq]
          exact hv'.is.eval
      · have hne : r' ≠ r := fun heq => by rw [heq, hr] at hr'; cases hr'
        exact (hother r' hne).trans (ht.stack r' hr')

end Gen.Does

end SmlnjCfg.Codegen
