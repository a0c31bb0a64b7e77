import SmlnjCfg.Codegen.Heap

/-!
# `SmlnjCfg.Codegen.Reads`: what the code of a cluster reads

Code generation keeps the variables in one table, and the special registers in a cache
that it saves before the arms of a `BRANCH` or a `SWITCH` and restores for each of them.
Here is what a read of a variable or of a register gives, after any path to it.

* `codegenCluster_variable`: a variable keeps its value within its fragment.
* `codegenCluster_register`: `GET_HDLR` and `GET_VAR` give what was set last on the path.
* `codegenCluster_collect`: the registers and the roots that a collection gives back.
-/

set_option autoImplicit false

namespace SmlnjCfg.Cfg

variable {M : Machine} {ρ ρ' : Env} {σ σ' : MState} {s k : Stm .cpp}

/-! ### Variables -/

namespace Env

/-- A variable that is not in the list keeps its value. -/
theorem setAll_of_not_mem (ρ : Env) {xs : List LVar} (vs : List MLVal) {x : LVar} (hx : x ∉ xs) :
    ρ.setAll xs vs x = ρ x := by
  induction xs generalizing ρ vs with
  | nil => rw [setAll_nil]
  | cons y xs ih =>
      obtain ⟨hne, hxs⟩ := not_or.mp (List.mem_cons.not.mp hx)
      cases vs with
      | nil => rfl
      | cons v vs => exact (ih _ vs hxs).trans (set_of_ne ρ v hne)

/-- A variable of the list gets the value at its position, if the list has it once. -/
theorem setAll_getElem? (ρ : Env) {xs : List LVar} {vs : List MLVal} {x : LVar} {v : MLVal} {j : Nat}
    (hnodup : xs.Nodup) (hx : xs[j]? = some x) (hv : vs[j]? = some v) :
    ρ.setAll xs vs x = some v := by
  induction xs generalizing ρ vs j with
  | nil => simp at hx
  | cons y xs ih =>
      obtain ⟨hy, hxs⟩ := List.nodup_cons.mp hnodup
      cases vs with
      | nil => simp at hv
      | cons u vs =>
          cases j with
          | zero =>
              obtain rfl : y = x := by simpa using hx
              obtain rfl : u = v := by simpa using hv
              exact (setAll_of_not_mem _ vs hy).trans (set_self ρ y u)
          | succ j => exact ih _ hxs (by simpa using hx) (by simpa using hv)

end Env

/-- Jumps to another fragment, where a new table of variables starts. -/
def Stm.isGoto : Stm .cpp → Bool
  | .GOTO .. => true
  | _ => false

/-- What an arm binds is among what the arms bind. -/
theorem Stm.mem_bindersArms {ks : List (Stm .cpp)} {x : LVar} (hk : k ∈ ks) (hx : x ∈ k.binders) :
    x ∈ Stm.bindersArms ks := by
  induction ks with
  | nil => cases hk
  | cons k' ks ih =>
      rw [Stm.bindersArms]
      rcases List.mem_cons.mp hk with rfl | hk
      · exact List.mem_append_left _ hx
      · exact List.mem_append_right _ (ih hk)

/-- Within a fragment, a statement changes the variables that it binds, and what follows it binds
no others than it says. -/
theorem Stm.Goes.env (h : s.Goes M ρ σ k ρ' σ') (hs : s.isGoto = false) {x : LVar}
    (hx : x ∉ s.binders) : ρ' x = ρ x ∧ x ∉ k.binders := by
  cases h with
  | pure | alloc | arith =>
      obtain ⟨hne, hk⟩ := not_or.mp (List.mem_cons.not.mp hx)
      exact ⟨Env.set_of_ne _ _ hne, hk⟩
  | goto => cases hs
  | switch hk => exact ⟨rfl, fun hxk => hx (Stm.mem_bindersArms hk hxk)⟩
  | branch b =>
      obtain ⟨ht, hf⟩ := not_or.mp (List.mem_append.not.mp hx)
      cases b with
      | false => exact ⟨rfl, hf⟩
      | true => exact ⟨rfl, ht⟩
  | setter => exact ⟨rfl, hx⟩
  | collect hvs hgc =>
      obtain ⟨hnew, hk⟩ := not_or.mp (List.mem_append.not.mp hx)
      obtain ⟨-, ⟨⟩⟩ := Option.ite_none_right_eq_some.mp hgc
      exact ⟨Env.setAll_of_not_mem _ _ hnew, hk⟩

/-- Variables that are not bound on a path within a fragment keep their values, by induction on
the path. -/
theorem Path.env_eq {ps : List Point} (h : Path M ps (.run s ρ σ) (.run k ρ' σ'))
    (hlocal : ∀ p ∈ ps, p.stm.isGoto = false) {x : LVar} (hx : x ∉ s.binders) : ρ' x = ρ x := by
  induction ps generalizing s ρ σ with
  | nil =>
      cases h
      rfl
  | cons p ps ih =>
      cases h with
      | cons hstep hrest =>
          obtain ⟨hs, hps⟩ := List.forall_mem_cons.mp hlocal
          obtain ⟨henv, hk⟩ := (Stm.goes_of_step hstep).env hs hx
          exact (ih hrest hps hk).trans henv

/-! ### Registers -/

/-- The registers that programs read and set: the exception handler and the variable pointer. -/
inductive UserReg where
  | hdlr | var
  deriving DecidableEq

namespace UserReg

/-- The register of the code generator. -/
def id : UserReg → CMRegId
  | hdlr => .EXN_HNDLR
  | var => .VAR_PTR

/-- The operation that reads it. -/
def getter : UserReg → CfgPrim.Looker .cpp
  | hdlr => .GET_HDLR
  | var => .GET_VAR

/-- The operation that sets it. -/
def setter : UserReg → CfgPrim.Setter .cpp
  | hdlr => .SET_HDLR
  | var => .SET_VAR

/-- The getter reads the register, wherever it lives. -/
theorem getter_eval (r : UserReg) (M : Machine) (σ : MState) (vs : List MLVal) :
    r.getter.eval M σ vs = some (.ml (M.getReg σ r.id)) := by
  cases r <;> cases vs <;> rfl

/-- The setter sets it, to an ML value. The machine has no step for a native integer here. -/
theorem setter_eval (r : UserReg) (v : MLVal) (hv : v.isInt = false) :
    r.setter.eval M σ [v] = some (M.setReg σ r.id v.word) := by
  cases r <;> exact if_neg (by simp [hv])

end UserReg

/-- A statement that sets `r`. -/
def Stm.sets (r : UserReg) : Stm .cpp → Bool
  | .SETTER .SET_HDLR _ _ => r = .hdlr
  | .SETTER .SET_VAR _ _ => r = .var
  | _ => false

namespace Machine

/-- A register that was set has the value, as a machine register or in its stack slot. -/
theorem getReg_setReg_self (M : Machine) (σ : MState) (r : CMRegId) (w : Word) :
    M.getReg (M.setReg σ r w) r = w := by
  unfold getReg setReg
  split
  · exact Function.update_self ..
  · rw [MState.load, MState.mem_store, Mem.read_write_word, BitVec.ofNat_toNat, BitVec.setWidth_eq]

/-- The machine registers after another register was set, which may have been a store to its
slot. -/
theorem reg_setReg_of_ne (M : Machine) (σ : MState) {r r' : CMRegId} (w : Word) (h : r ≠ r') :
    (M.setReg σ r' w).reg r = σ.reg r := by
  unfold setReg
  split
  · exact Function.update_of_ne h ..
  · rfl

end Machine

end SmlnjCfg.Cfg

namespace SmlnjCfg.CfgPrim

open Cfg

variable {M : Machine} {σ σ' : MState} {vs : List MLVal} {r : CMRegId}

/-- Making an object changes the allocation pointer only. -/
theorem allocWords_reg {desc w : Word} {ws : List Word} (hr : r ≠ .ALLOC_PTR)
    (h : allocWords M σ desc ws = some (w, σ')) : σ'.reg r = σ.reg r := by
  obtain ⟨-, ⟨⟩⟩ := Option.ite_none_right_eq_some.mp h
  rw [M.reg_setReg_of_ne _ _ hr, storeAll_eq]

/-- Allocations change the allocation pointer only, whatever they allocate. -/
theorem Alloc.reg_of_eval {oper : Alloc .cpp} {w : Word} (hr : r ≠ .ALLOC_PTR)
    (h : oper.eval M σ vs = some (w, σ')) : σ'.reg r = σ.reg r := by
  unfold Alloc.eval at h
  split at h
  next => exact allocWords_reg hr h
  next =>
    obtain ⟨d, -, h⟩ := Option.bind_eq_some_iff.mp h
    exact allocWords_reg hr h
  next oper desc align len =>
    obtain ⟨-, h⟩ := Option.ite_none_right_eq_some.mp h
    cases desc with
    | some desc =>
        obtain ⟨d, -, ⟨⟩⟩ := Option.bind_eq_some_iff.mp h
        exact M.reg_setReg_of_ne _ _ hr
    | none =>
        obtain ⟨-, ⟨⟩⟩ := Option.ite_none_right_eq_some.mp h
        exact M.reg_setReg_of_ne _ _ hr
  next => cases h

/-- Setters change the register that they are for, and those of the allocator where they note an
address in the store list. -/
theorem Setter.reg_of_eval {oper : Setter .cpp} (ha : r ≠ .ALLOC_PTR) (hs : r ≠ .STORE_PTR)
    (hh : oper = .SET_HDLR → r ≠ .EXN_HNDLR) (hv : oper = .SET_VAR → r ≠ .VAR_PTR)
    (h : oper.eval M σ vs = some σ') : σ'.reg r = σ.reg r := by
  have hnote : ∀ a w : Word, ((noteStore M σ a).store a w).reg r = σ.reg r := by
    intro a w
    show (noteStore M σ a).reg r = _
    rw [noteStore, M.reg_setReg_of_ne _ _ ha, M.reg_setReg_of_ne _ _ hs, storeAll_eq]
  unfold Setter.eval at h
  split at h
  next =>
    obtain ⟨-, ⟨⟩⟩ := Option.ite_none_right_eq_some.mp h
    rfl
  next =>
    obtain ⟨-, ⟨⟩⟩ := Option.ite_none_right_eq_some.mp h
    exact hnote _ _
  next =>
    cases h
    rfl
  next =>
    cases h
    exact hnote _ _
  next =>
    obtain ⟨-, ⟨⟩⟩ := Option.ite_none_right_eq_some.mp h
    rfl
  next =>
    obtain ⟨-, ⟨⟩⟩ := Option.ite_none_right_eq_some.mp h
    rfl
  next =>
    obtain ⟨-, ⟨⟩⟩ := Option.ite_none_left_eq_some.mp h
    exact M.reg_setReg_of_ne _ _ (hh rfl)
  next =>
    obtain ⟨-, ⟨⟩⟩ := Option.ite_none_left_eq_some.mp h
    exact M.reg_setReg_of_ne _ _ (hv rfl)
  next => cases h

end SmlnjCfg.CfgPrim

namespace SmlnjCfg.Cfg

variable {M : Machine} {ρ ρ' : Env} {σ σ' : MState} {s k : Stm .cpp}

/-- These are not the registers of the allocator. -/
theorem UserReg.id_ne (r : UserReg) : r.id ≠ .ALLOC_PTR ∧ r.id ≠ .STORE_PTR := by
  cases r <;> exact ⟨nofun, nofun⟩

/-- Statements that do not set the register keep it, collections apart: a collection gives every
register a new value. -/
theorem Stm.Goes.reg {r : UserReg} (h : s.Goes M ρ σ k ρ' σ') (hs : s.isMutator = true)
    (hset : s.sets r = false) : σ'.reg r.id = σ.reg r.id := by
  obtain ⟨ha, hstore⟩ := r.id_ne
  cases h with
  | alloc hvs hw => exact CfgPrim.Alloc.reg_of_eval ha hw
  | setter hvs hσ =>
      refine CfgPrim.Setter.reg_of_eval ha hstore ?_ ?_ hσ
      · rintro rfl
        cases r with
        | hdlr => cases hset
        | var => exact nofun
      · rintro rfl
        cases r with
        | hdlr => exact nofun
        | var => cases hset
  | collect => cases hs
  | pure | goto | switch | branch | arith => rfl

/-- The register keeps its value on a path that does not set it. This is about the machine
registers; for one in the stack frame, see the next lemma. -/
theorem Path.reg_eq {r : UserReg} {ps : List Point} (h : Path M ps (.run s ρ σ) (.run k ρ' σ'))
    (hmut : ∀ p ∈ ps, p.stm.isMutator = true) (hset : ∀ p ∈ ps, p.stm.sets r = false) :
    σ'.reg r.id = σ.reg r.id := by
  induction ps generalizing s ρ σ with
  | nil =>
      cases h
      rfl
  | cons p ps ih =>
      cases h with
      | cons hstep hrest =>
          obtain ⟨hs, hmut⟩ := List.forall_mem_cons.mp hmut
          obtain ⟨hp, hset⟩ := List.forall_mem_cons.mp hset
          exact (ih hrest hmut hset).trans ((Stm.goes_of_step hstep).reg hs hp)

/-- No statement on the path touches the stack slot of the register: it is outside of the part of
the heap that is allocated on the path, and no explicit store is to it. -/
structure KeepsSlot (M : Machine) (r : UserReg) (ps : List Point) (σ σ' : MState) : Prop where
  wrap : (σ.reg .ALLOC_PTR).toNat + heapSize ps < 2 ^ 64
  heap : (M.slot (M.target.stkOffset r.id)).toNat + 8 ≤ (σ.reg .ALLOC_PTR).toNat ∨
    (σ'.reg .ALLOC_PTR).toNat ≤ (M.slot (M.target.stkOffset r.id)).toNat
  spares : ∀ p ∈ ps, p.Spares M (M.slot (M.target.stkOffset r.id)).toNat 8

/-- So does a register in the stack frame, when nothing else is stored to its slot. The frame
property of the heap is what keeps the slot. -/
theorem Path.getReg_eq {r : UserReg} {ps : List Point} (hregs : M.HeapRegs)
    (h : Path M ps (.run s ρ σ) (.run k ρ' σ')) (hmut : ∀ p ∈ ps, p.stm.isMutator = true)
    (hset : ∀ p ∈ ps, p.stm.sets r = false)
    (hslot : M.target.isMachineReg r.id = false → KeepsSlot M r ps σ σ') :
    M.getReg σ' r.id = M.getReg σ r.id := by
  cases hr : M.target.isMachineReg r.id with
  | true =>
      rw [Machine.getReg, Machine.getReg, if_pos hr, if_pos hr]
      exact h.reg_eq hmut hset
  | false =>
      have hkeep := hslot hr
      obtain ⟨es, hes⟩ := h.effects hregs hmut hkeep.wrap
      have hload := hes.read_eq hkeep.heap hkeep.spares
      rw [Machine.getReg, Machine.getReg, if_neg (by simp [hr]), if_neg (by simp [hr]),
        MState.load, hload]
      rfl

/-- The register has the value that was set last. The path starts with the setter. -/
theorem Path.getReg_set {r : UserReg} {ps : List Point} {arg : Exp .cpp} {k₁ : Stm .cpp}
    {v : MLVal} (hregs : M.HeapRegs)
    (h : Path M (⟨.SETTER r.setter [arg] k₁, ρ, σ⟩ :: ps)
      (.run (.SETTER r.setter [arg] k₁) ρ σ) (.run k ρ' σ'))
    (hv : arg.eval M ρ σ = some v) (hmut : ∀ p ∈ ps, p.stm.isMutator = true)
    (hset : ∀ p ∈ ps, p.stm.sets r = false)
    (hslot : M.target.isMachineReg r.id = false →
      KeepsSlot M r ps (M.setReg σ r.id v.word) σ') :
    M.getReg σ' r.id = v.word := by
  cases h with
  | @cons _ k₂ _ ρ₂ _ σ₂ _ _ hstep hrest =>
      obtain ⟨rfl, rfl⟩ : k₂ = k₁ ∧ σ₂ = M.setReg σ r.id v.word := by
        cases Stm.goes_of_step hstep with
        | setter hvs hσ =>
            rw [Exp.evalArgs, hv] at hvs
            cases hvs
            cases hi : v.isInt with
            | true =>
                cases r with
                | hdlr =>
                    obtain ⟨hn, -⟩ := Option.ite_none_left_eq_some.mp hσ
                    exact absurd hi hn
                | var =>
                    obtain ⟨hn, -⟩ := Option.ite_none_left_eq_some.mp hσ
                    exact absurd hi hn
            | false =>
                rw [r.setter_eval v hi] at hσ
                exact ⟨rfl, (Option.some.inj hσ).symm⟩
      rw [hrest.getReg_eq hregs hmut hset hslot, M.getReg_setReg_self]

end SmlnjCfg.Cfg

namespace SmlnjCfg.Cfg

variable {M : Machine} {ρ ρ' : Env} {σ σ' : MState} {s k : Stm .cpp}

/-! ### Collections -/

namespace MState

/-- A register that is not in the list keeps its value. -/
theorem setRegs_reg_of_not_mem (σ : MState) {rs : List CMRegId} (ws : List Word) {r : CMRegId}
    (hr : r ∉ rs) : (σ.setRegs rs ws).reg r = σ.reg r := by
  induction rs generalizing σ ws with
  | nil => rw [setRegs_nil]
  | cons r' rs ih =>
      obtain ⟨hne, hrs⟩ := not_or.mp (List.mem_cons.not.mp hr)
      cases ws with
      | nil => rfl
      | cons w ws => exact (ih _ ws hrs).trans (Function.update_of_ne hne ..)

/-- A register of the list gets the word at its position. -/
theorem setRegs_reg_getElem? (σ : MState) {rs : List CMRegId} {ws : List Word} {r : CMRegId}
    {w : Word} {i : Nat} (hnodup : rs.Nodup) (hr : rs[i]? = some r) (hw : ws[i]? = some w) :
    (σ.setRegs rs ws).reg r = w := by
  induction rs generalizing σ ws i with
  | nil => simp at hr
  | cons r' rs ih =>
      obtain ⟨hr', hrs⟩ := List.nodup_cons.mp hnodup
      cases ws with
      | nil => simp at hw
      | cons w' ws =>
          cases i with
          | zero =>
              obtain rfl : r' = r := by simpa using hr
              obtain rfl : w' = w := by simpa using hw
              exact (setRegs_reg_of_not_mem _ ws hr').trans (Function.update_self ..)
          | succ i => exact ih _ hrs (by simpa using hr) (by simpa using hw)

/-- Setting machine registers stores nothing. -/
theorem setRegs_mem (σ : MState) (rs : List CMRegId) (ws : List Word) :
    (σ.setRegs rs ws).mem = σ.mem ∧ (σ.setRegs rs ws).trace = σ.trace := by
  induction rs generalizing σ ws with
  | nil => rw [setRegs_nil]; exact ⟨rfl, rfl⟩
  | cons r rs ih =>
      cases ws with
      | nil => exact ⟨rfl, rfl⟩
      | cons w ws => exact ih _ ws

end MState

/-- A collection with the roots `us` for the variables `newRoots`: the collector is called with
`args`, and gives back `res`. The first of the words in both are the machine registers, and the
roots come after them. The memory is what the collector makes of it. -/
structure Collected (M : Machine) (us : List MLVal) (newRoots : List LVar) (ρ ρ' : Env)
    (σ σ' : MState) (args res : List Word) : Prop where
  call : M.call (σ.load (M.slot M.target.callGCOffset)) args σ.mem = (res, σ'.mem)
  length : res.length = args.length
  trace : σ'.trace = σ.trace
  /-- A register comes back where it was passed. -/
  reg : ∀ (i : Nat) (r : CMRegId), M.target.machineRegs[i]? = some r →
    args[i]? = some (σ.reg r) ∧ res[i]? = some (σ'.reg r)
  /-- A root comes back where it was passed. -/
  root : ∀ (j : Nat) (x : LVar), newRoots[j]? = some x → ∃ u w, us[j]? = some u ∧
    args[M.target.numMachineRegs + j]? = some u.word ∧
    res[M.target.numMachineRegs + j]? = some w ∧ ρ' x = some (.ml w)
  other : ∀ x, x ∉ newRoots → ρ' x = ρ x

/-- A step of a collection is one, if the variables for the new roots are distinct. If two were
the same, the later root would be lost. -/
theorem collected_of_gcStep {us : List MLVal} {newRoots : List LVar} (hnodup : newRoots.Nodup)
    (h : gcStep M ρ σ (us.map (·.word)) newRoots k = some (.run k ρ' σ')) :
    ∃ args res, Collected M us newRoots ρ ρ' σ σ' args res := by
  obtain ⟨⟨hroots, hres, hnew⟩, hq⟩ := Option.ite_none_right_eq_some.mp h
  rw [List.length_map] at hroots
  have hwords : (M.machineWords σ).length = M.target.numMachineRegs := by
    rw [Machine.machineWords, List.length_map]
    rfl
  generalize hcall : M.call (σ.load (M.slot M.target.callGCOffset))
    (M.machineWords σ ++ us.map (·.word)) σ.mem = out at hq hres
  obtain ⟨res, mem⟩ := out
  cases hq
  refine ⟨M.machineWords σ ++ us.map (·.word), res, ?_⟩
  have hmem := MState.setRegs_mem { σ with mem := mem } M.target.machineRegs res
  refine ⟨hcall.trans (by rw [hmem.1]), ?_, hmem.2, fun i r hr => ?_, fun j x hx => ?_,
    fun x hx => Env.setAll_of_not_mem _ _ hx⟩
  · rw [List.length_append, hwords, List.length_map, hroots]
    exact hres
  · have hi : i < M.target.numMachineRegs := (List.getElem?_eq_some_iff.mp hr).1
    have hlt : i < res.length := by
      rw [hres]
      omega
    refine ⟨?_, ?_⟩
    · rw [List.getElem?_append_left (by omega), Machine.machineWords, List.getElem?_map, hr]
      rfl
    · rw [MState.setRegs_reg_getElem? _ M.target.nodup_machineRegs hr
        (List.getElem?_eq_getElem hlt)]
      exact List.getElem?_eq_getElem hlt
  · have hj : j < newRoots.length := (List.getElem?_eq_some_iff.mp hx).1
    have hus : j < us.length := by omega
    have hlt : M.target.numMachineRegs + j < res.length := by
      rw [hres]
      omega
    refine ⟨us[j], res[M.target.numMachineRegs + j], List.getElem?_eq_getElem hus, ?_,
      List.getElem?_eq_getElem hlt, Env.setAll_getElem? _ hnodup hx ?_⟩
    · rw [List.getElem?_append_right (by omega), hwords, Nat.add_sub_cancel_left,
        List.getElem?_map, List.getElem?_eq_getElem hus]
      rfl
    · rw [List.getElem?_map, List.getElem?_drop, List.getElem?_eq_getElem hlt]
      rfl

end SmlnjCfg.Cfg

namespace SmlnjCfg.Codegen

open Cfg Gen IR

variable {act : Activation Sym} {M : Machine} {ρ ρ' : Env} {σ₀ σ σ' : MState} {cf : ClusterFn}
  {c C : Context} {f : Frag .cpp} {vs : List MLVal} {s : State} {stm k : Stm .cpp}
  {ps : List Point}

/-! ### Reads in the code -/

/-- At `q`, the function is where code generation came to `k`, and there the code for `exp`
computes `v`. The code is generated at that point and executed in the state there, so this is
about any expression, also about one that the program does not have. -/
def Computes (act : Activation Sym) (cf : ClusterFn) (c C : Context) (q : IR.Config BBId Sym)
    (k : Stm .cpp) (exp : Exp .cpp) (v : MLVal) : Prop :=
  ∃ fs d₀ frag path d, ClusterRun cf c C fs d₀ ∧ Visits (.frags fs 0, d₀) (.stm frag k path, d) ∧
    q = d.config C q.st ∧ exp.codegen.Does act d q.st fun u d' st' =>
      Quiet d d' q.st st' ∧ Holds act d' st' u v

/-- The code is at the end of a path, and computes there what the machine does. -/
theorem Called.computes (h : Called act M cf c C f vs σ₀ s)
    (hrun : Runs M (.run f.body (f.env vs) σ₀) (.run stm ρ σ))
    (hpath : Path M ps (.run stm ρ σ) (.run k ρ' σ')) : ∃ q q',
    Follow act M C (startConfig C.body s) (.run stm ρ σ) (.run k ρ' σ') q q' ∧
      ∀ exp v, exp.eval M ρ' σ' = some v → Computes act cf c C q' k exp v := by
  obtain ⟨fs, d₀, hc⟩ := exists_compiled h.code h.linked h.frags h.unique h.enters
  obtain ⟨q, hreach, hm⟩ := hc.simulates.star hrun (hc.start h.enters)
  obtain ⟨q', hreach', hm'⟩ := hc.simulates.star hpath.runs hm
  refine ⟨q, q', ⟨hreach, hreach', fs, d₀, hm, hm'⟩, fun exp v hv => ?_⟩
  cases hm' with
  | run hvisit ht =>
      exact ⟨fs, d₀, _, _, _, hc.toClusterRun, hvisit, rfl, Exp.does_eval exp ht hv⟩

/-- A variable that has a value is not bound again, since all binders of a fragment are
distinct. -/
theorem Called.not_mem_binders (h : Called act M cf c C f vs σ₀ s)
    (hrun : Runs M (.run f.body (f.env vs) σ₀) (.run stm ρ σ)) {x : LVar} {v : MLVal}
    (hx : ρ x = some v) : x ∉ stm.binders := by
  obtain ⟨fs, d₀, hc⟩ := exists_compiled h.code h.linked h.frags h.unique h.enters
  obtain ⟨q, -, hm⟩ := hc.simulates.star hrun (hc.start h.enters)
  cases hm with
  | run hvisit ht =>
      intro hmem
      obtain ⟨u, hu, -⟩ := ht.env x v hx
      rw [(hc.fresh h.unique hvisit).2 x hmem] at hu
      cases hu

/-! ### A collection -/

/-- A cluster that sets the exception handler, and then collects unless its arguments are the
same. It passes more roots than there are registers for, some of them twice. -/
def tidyUp : Cluster .cpp where
  attrs := ⟨0, false, false, false⟩
  frags := [
    { kind := .con .STD_FUN, lab := 1, params := [⟨10, .PTRt⟩, ⟨11, .PTRt⟩],
      body := .SETTER .SET_HDLR [.VAR 11]
        (.BRANCH .PEQL [.VAR 10, .VAR 11] 0 (.THROW (.VAR 10) [.VAR 11] [.PTRt])
          (.CALLGC [.VAR 10, .VAR 11, .VAR 11, .VAR 11, .VAR 11, .VAR 11, .VAR 10] [20, 21]
            (.THROW (.VAR 20) [.VAR 21] [.PTRt]))) }]

/-- The cluster with its function, where the handler is in the stack frame. -/
def tidyUpFn : ClusterFn := ⟨tidyUp, ⟨1, List.replicate 5 ptrTy⟩⟩

/-- The context after code generation for it. -/
def tidyUpEnd : Context := CodegenM.after (codegenCluster tidyUpFn) (Context.create x86_64Info)

/-- A machine whose collector moves all roots. -/
def tidyMachine : Machine where
  target := x86_64Info
  sp := 1048576
  label _ := 0
  code _ := 0
  entry _ := none
  frags := tidyUp.frags
  call _ _ mem := ([8192, 65536, 8192, 71, 72, 73, 74, 75, 76, 77], mem)
  fixed _ := false

/-- A call with the continuation `7` and the handler `1024`. -/
def tidyArgs : Activation Sym where
  host := { (countDownArgs 0).host with sp := 1048576, call := tidyMachine.call, call_fixed := nofun }
  args := [some 4096, some 65536, some 512, some 7, some 1024]

/-- Code generation for it succeeds. -/
theorem codegenCluster_tidyUp :
    codegenCluster tidyUpFn (Context.create x86_64Info) = .ok ((), tidyUpEnd) := by
  obtain ⟨⟨⟩, h⟩ := CodegenM.after_ok (x := codegenCluster tidyUpFn)
    (c := Context.create x86_64Info) (by decide +kernel)
  exact h

/-- It is called with the continuation and the handler in their registers. -/
theorem called_tidyUp : Called tidyArgs tidyMachine tidyUpFn (Context.create x86_64Info) tidyUpEnd
    tidyUp.frags[0] [.ml 7, .ml 1024] boxState ⟨fun _ => [], boxState.mem, []⟩ where
  code := codegenCluster_tidyUp
  linked := ⟨rfl, rfl, rfl, rfl, rfl, nofun⟩
  frags := rfl
  unique := by decide
  enters := ⟨rfl, rfl, ⟨.STD_FUN, [], rfl, by decide, rfl, rfl, rfl⟩, rfl, rfl⟩

/-! ### Variables and registers in the code -/

section

/-- From a point where a variable has a value, along any path in the same fragment, the code of
the variable gives that value. Statements in arms that were not taken have bound others since,
which is why the binders of all arms have to be distinct. -/
theorem codegenCluster_variable (h : Called act M cf c C f vs σ₀ s)
    (hrun : Runs M (.run f.body (f.env vs) σ₀) (.run stm ρ σ))
    (hpath : Path M ps (.run stm ρ σ) (.run k ρ' σ'))
    (hlocal : ∀ p ∈ ps, p.stm.isGoto = false) {x : LVar} {v : MLVal} (hx : ρ x = some v) :
    ∃ q q', Follow act M C (startConfig C.body s) (.run stm ρ σ) (.run k ρ' σ') q q' ∧
      Computes act cf c C q' k (.VAR x) v := by
  obtain ⟨q, q', hfollow, hcomputes⟩ := h.computes hrun hpath
  have heq := hpath.env_eq hlocal (h.not_mem_binders hrun hx)
  exact ⟨q, q', hfollow, hcomputes _ v (heq.trans hx)⟩

end

/-- The continuation is there after the handler was set, in either arm. -/
theorem codegenCluster_variable_tidyUp : ∃ (a a' : Cfg.Config) (k : Stm .cpp) (q q' : _),
    Follow tidyArgs tidyMachine tidyUpEnd (startConfig tidyUpEnd.body
      ⟨fun _ => [], boxState.mem, []⟩) a a' q q' ∧
    Computes tidyArgs tidyUpFn (Context.create x86_64Info) tidyUpEnd q' k (.VAR 10) (.ml 7) := by
  obtain ⟨q, q', hfollow, hcomputes⟩ := codegenCluster_variable called_tidyUp .refl
    (.cons rfl (.cons rfl .nil)) (List.forall_mem_cons.mpr ⟨rfl, List.forall_mem_cons.mpr
      ⟨rfl, nofun⟩⟩) (x := 10) rfl
  exact ⟨_, _, _, q, q', hfollow, hcomputes⟩

section

/-- On any path of the code without a collection, through arms and jumps, a `GET_HDLR` or a
`GET_VAR` gives the value that was set last, whether the register is a machine register or in the
stack frame. In the first case the code is the value itself, which the code generator has
remembered. -/
theorem codegenCluster_register (h : Called act M cf c C f vs σ₀ s) (hregs : M.HeapRegs)
    {r : UserReg} {arg : Exp .cpp} {v : MLVal}
    (hrun : Runs M (.run f.body (f.env vs) σ₀) (.run (.SETTER r.setter [arg] stm) ρ σ))
    (hpath : Path M (⟨.SETTER r.setter [arg] stm, ρ, σ⟩ :: ps)
      (.run (.SETTER r.setter [arg] stm) ρ σ) (.run k ρ' σ'))
    (hv : arg.eval M ρ σ = some v) (hmut : ∀ p ∈ ps, p.stm.isMutator = true)
    (hset : ∀ p ∈ ps, p.stm.sets r = false)
    (hslot : M.target.isMachineReg r.id = false →
      KeepsSlot M r ps (M.setReg σ r.id v.word) σ') :
    ∃ q q', Follow act M C (startConfig C.body s) (.run (.SETTER r.setter [arg] stm) ρ σ)
        (.run k ρ' σ') q q' ∧
      Computes act cf c C q' k (.LOOKER r.getter []) (.ml v.word) := by
  obtain ⟨q, q', hfollow, hcomputes⟩ := h.computes hrun hpath
  have hget := hpath.getReg_set hregs hv hmut hset hslot
  refine ⟨q, q', hfollow, hcomputes _ _ ?_⟩
  rw [Exp.eval, Exp.evalArgs]
  exact (r.getter_eval M σ' []).trans (by rw [hget])

end

/-- The handler is in its slot at the collection. -/
theorem codegenCluster_register_tidyUp : ∃ (a a' : Cfg.Config) (k : Stm .cpp) (q q' : _),
    Follow tidyArgs tidyMachine tidyUpEnd (startConfig tidyUpEnd.body
      ⟨fun _ => [], boxState.mem, []⟩) a a' q q' ∧
    Computes tidyArgs tidyUpFn (Context.create x86_64Info) tidyUpEnd q' k (.LOOKER .GET_HDLR [])
      (.ml 1024) := by
  obtain ⟨q, q', hfollow, hcomputes⟩ := codegenCluster_register called_tidyUp ⟨rfl, rfl, rfl⟩
    (r := .hdlr) .refl (.cons rfl (.cons rfl .nil)) rfl (List.forall_mem_cons.mpr ⟨rfl, nofun⟩)
    (List.forall_mem_cons.mpr ⟨rfl, nofun⟩) fun _ => ⟨by decide, .inr (by decide),
      List.forall_mem_cons.mpr ⟨nofun, nofun⟩⟩
  exact ⟨_, _, _, q, q', hfollow, hcomputes⟩

section

/-- The code of a `CALLGC` calls the collector with the registers and the roots. Each of them
comes back in the place where it was passed, and this is what the code after the call reads. The
memory after the call is the one that the collector returns. -/
theorem codegenCluster_collect (h : Called act M cf c C f vs σ₀ s) {roots : List (Exp .cpp)}
    {newRoots : List LVar}
    (hrun : Runs M (.run f.body (f.env vs) σ₀) (.run (.CALLGC roots newRoots stm) ρ σ))
    (hstep : (Stm.CALLGC roots newRoots stm).step M ρ σ = some (.run k ρ' σ')) :
    ∃ us args res q q', Exp.evalArgs M ρ σ roots = some us ∧
      Collected M us newRoots ρ ρ' σ σ' args res ∧
      Follow act M C (startConfig C.body s) (.run (.CALLGC roots newRoots stm) ρ σ)
        (.run k ρ' σ') q q' ∧ q'.st.mem = σ'.mem ∧
      (∀ r : UserReg, Computes act cf c C q' k (.LOOKER r.getter []) (.ml (M.getReg σ' r.id))) ∧
      ∀ x v, ρ' x = some v → Computes act cf c C q' k (.VAR x) v := by
  obtain ⟨us, hus, hgc⟩ := Option.bind_eq_some_iff.mp (Stm.step_eq_some.mp hstep).1
  have hgoes := Stm.goes_of_step hstep
  obtain ⟨fs, d₀, hc⟩ := exists_compiled h.code h.linked h.frags h.unique h.enters
  obtain ⟨q₀, -, hm₀⟩ := hc.simulates.star hrun (hc.start h.enters)
  have hnodup : newRoots.Nodup := by
    cases hm₀ with
    | run hvisit ht =>
        have hfresh := (hc.fresh h.unique hvisit).1
        rw [Code.binders, Stm.binders] at hfresh
        exact (List.nodup_append.mp hfresh).1
  obtain ⟨q, q', hfollow, hcomputes⟩ := h.computes hrun (.cons hstep .nil)
  cases hgoes with
  | collect hus' hgc' =>
      rw [hus] at hus'
      cases hus'
      obtain ⟨args, res, hcoll⟩ := collected_of_gcStep hnodup hgc'
      obtain ⟨_, _, _, hm⟩ := hfollow.agrees
      refine ⟨us, args, res, q, q', hus, hcoll, hfollow, hm.agrees.1, fun r => hcomputes _ _ ?_,
        fun x v hx => hcomputes _ _ hx⟩
      rw [Exp.eval, Exp.evalArgs]
      exact r.getter_eval M σ' []

end

/-- The continuation and the handler come back as `71` and `72`. -/
theorem codegenCluster_collect_tidyUp : ∃ (ρ ρ' : Env) (σ σ' : MState) (us : List MLVal)
    (args res : List Word) (k : Stm .cpp) (q' : _), ρ' 21 = some (.ml 72) ∧
    Collected tidyMachine us [20, 21] ρ ρ' σ σ' args res ∧
    Computes tidyArgs tidyUpFn (Context.create x86_64Info) tidyUpEnd q' k (.VAR 21) (.ml 72) := by
  obtain ⟨us, args, res, q, q', -, hcoll, -, -, -, hvars⟩ := codegenCluster_collect called_tidyUp
    (.head rfl (.single rfl)) rfl
  exact ⟨_, _, _, _, us, args, res, _, q', rfl, hcoll, hvars 21 _ rfl⟩

end SmlnjCfg.Codegen
