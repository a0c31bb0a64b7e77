import SmlnjCfg.Codegen.Step

/-!
# `SmlnjCfg.Codegen.Head`: what the head of a statement does

The code of a statement itself, its head, is generated in the steps of `Step`. It has the right
to bind the variables of the statement to values that are at hand, and to give a register that
has a value a new one. `NewReg` lists the values that registers get: the results of instructions
of the head, the allocation pointer for the store pointer, and the operand of `SET_HDLR` or
`SET_VAR`, which is passed on as it is.

The proof follows the code. `Gen.Yields` says of straight-line code that it takes steps and what
is known of its result, with one lemma for each function of the context, and
`CodegenM.Yields` does so for code that may end blocks.

* `NewReg`, `Stm.rights`: the rights of a head.
* `Exp.yields`, `Alloc.yields`, `Setter.yields`: expressions and operators.
* `Stm.head_steps`: a head takes steps, or steps and then the test for overflow.
* `Stm.head_preorder`, `Emits.preorder`: what holds for steps and for the test holds for heads,
  and for everything that is generated.
-/

set_option autoImplicit false

namespace SmlnjCfg.Codegen

open Cfg Gen

variable {α β : Type}

/-! ### The rights of a head -/

/-- The value `v` comes from an instruction of the head that started at `c₀`, as a pointer. -/
def NewPtr (c₀ : Context) (n : Nat) (v : Val) : Prop :=
  ∃ id, v = .inst id ptrTy ∧ c₀.nextId ≤ id ∧ id < n

/-- The values that were there when the head started: those of variables and registers. -/
def Given (c₀ : Context) (v : Val) : Prop :=
  (∃ lv, c₀.vMap lv = some v) ∨ ∃ r, c₀.regState.val r = some v

/-- The values that the head of `s`, from `c₀` on, gives to registers. Every value but an operand
is a pointer, which is what the phi nodes of the overflow block are made for. -/
inductive NewReg (s : Stm .cpp) (c₀ : Context) (n : Nat) : CMRegId → Val → Prop
  | result {r : CMRegId} {v : Val} (h : NewPtr c₀ n v) : NewReg s c₀ n r v
  /-- `recordStore` makes the allocation pointer the store pointer. -/
  | allocPtr {v : Val} (h : c₀.regState.val .ALLOC_PTR = some v) : NewReg s c₀ n .STORE_PTR v
  /-- `SET_HDLR` and `SET_VAR` pass their operand on. -/
  | operand {oper : CfgPrim.Setter .cpp} {args : List (Exp .cpp)} {k : Stm .cpp} {r : CMRegId}
      {vs : List Val} {c₁ : Context} {v : Val} (hs : s = .SETTER oper args k)
      (hr : oper.reg = some r) (hargs : (Exp.codegenArgs args).run c₀ = .ok (vs, c₁))
      (hv : vs[0]? = some v) : NewReg s c₀ n r v

/-! ### Straight-line code -/

/-- A value at hand in the head that started at `c₀`, when a given number of instructions have
numbers. -/
abbrev AVal (c₀ : Context) : Nat → Val → Prop := fun n v => AtHand (Given c₀) c₀.nextId n v

/-- Values at hand, such as those of arguments. -/
abbrev AVals (c₀ : Context) : Nat → List Val → Prop := fun n vs => ∀ v ∈ vs, AVal c₀ n v

/-- Nothing is known of the result. Code for effect, and code whose result is not a value. -/
abbrev Anything : Nat → α → Prop := fun _ _ => True

/-- The allocation pointer: the one that the head started with, or one that it made. A register
that gets it as its own value is the store pointer only. -/
def AllocVal (c₀ : Context) (n : Nat) (v : Val) : Prop :=
  c₀.regState.val .ALLOC_PTR = some v ∨ NewPtr c₀ n v

/-- A pointer that was made stays one when more instructions are. -/
theorem NewPtr.mono {c₀ : Context} {n m : Nat} {v : Val} (h : NewPtr c₀ n v) (hle : n ≤ m) :
    NewPtr c₀ m v := by
  obtain ⟨id, rfl, hlo, hhi⟩ := h
  exact ⟨id, rfl, hlo, Nat.lt_of_lt_of_le hhi hle⟩

/-- A pointer that the head made is at hand. -/
theorem NewPtr.aVal {c₀ : Context} {n : Nat} {v : Val} (h : NewPtr c₀ n v) : AVal c₀ n v := by
  obtain ⟨id, rfl, hlo, hhi⟩ := h
  exact .result hlo hhi

/-- So is the allocation pointer, in either case. -/
theorem AllocVal.aVal {c₀ : Context} {n : Nat} {v : Val} (h : AllocVal c₀ n v) : AVal c₀ n v :=
  h.elim (fun h => .given (.inr ⟨_, h⟩)) NewPtr.aVal

/-- And it stays at hand. -/
theorem AllocVal.mono {c₀ : Context} {n m : Nat} {v : Val} (h : AllocVal c₀ n v) (hle : n ≤ m) :
    AllocVal c₀ m v := h.imp_right fun h => h.mono hle

/-- What a register may get does not change with the number of instructions. -/
theorem NewReg.mono {s : Stm .cpp} {c₀ : Context} {n m : Nat} {r : CMRegId} {v : Val}
    (h : NewReg s c₀ n r v) (hle : n ≤ m) : NewReg s c₀ m r v := by
  cases h with
  | result h => exact .result (h.mono hle)
  | allocPtr h => exact .allocPtr h
  | operand hs hr hargs hv => exact .operand hs hr hargs hv

/-- The rights of the head of `s` that starts at `c₀`. A register may get a value only if it has
one, since the others live on the stack, and only a statement that ends its path may pass values
to phi nodes. -/
def Stm.rights (s : Stm .cpp) (c₀ : Context) : Rights where
  given := Given c₀
  first := c₀.nextId
  binds lv := lv ∈ s.binds
  sets c r o := (c.regState.val r).isSome = true ∧
    ∃ v, o = some v ∧ NewReg s c₀ c.nextId r v ∧ AVal c₀ c.nextId v
  setsBase := False
  jumps := s.kids = .stop

section

variable {s : Stm .cpp} {c₀ c : Context}

/-- Every register has a value that is at hand: the one from the start, or one that a step gave
it. -/
theorem Steps.regs (h : Steps (Stm.rights s c₀) c₀ c) {r : CMRegId} {v : Val}
    (hv : c.regState.val r = some v) : AVal c₀ c.nextId v := by
  induction h with
  | refl => exact .given (.inr ⟨r, hv⟩)
  | @tail c₁ c' _ hlast ih =>
      have hkeep : c₁.regState.val r = some v → AVal c₀ c'.nextId v :=
        fun hv => (ih hv).mono hlast.nextId_le
      cases hlast with
      | @setReg r' o hset =>
          obtain ⟨-, w, rfl, -, hhand⟩ := hset
          by_cases hr : r = r'
          · subst hr
            rw [CMRegState.set_val_self] at hv
            cases hv
            exact hhand
          · rw [CMRegState.set_val_of_ne _ _ hr] at hv
            exact hkeep hv
      | setBase _ hbase => exact hbase.elim
      | _ => exact hkeep hv

/-- The allocation pointer is never an operand of the program: `SET_HDLR` and `SET_VAR` are about
the other registers. -/
theorem Steps.allocPtr (h : Steps (Stm.rights s c₀) c₀ c) {v : Val}
    (hv : c.regState.val .ALLOC_PTR = some v) : AllocVal c₀ c.nextId v := by
  induction h with
  | refl => exact .inl hv
  | @tail c₁ c' _ hlast ih =>
      have hkeep : c₁.regState.val .ALLOC_PTR = some v → AllocVal c₀ c'.nextId v :=
        fun hv => (ih hv).mono hlast.nextId_le
      cases hlast with
      | @setReg r o hset =>
          obtain ⟨-, w, rfl, hnew, -⟩ := hset
          by_cases hr : CMRegId.ALLOC_PTR = r
          · subst hr
            rw [CMRegState.set_val_self] at hv
            cases hv
            cases hnew with
            | result h => exact .inr h
            | @operand oper _ _ _ _ _ _ _ hreg => cases oper <;> cases hreg
          · rw [CMRegState.set_val_of_ne _ _ hr] at hv
            exact hkeep hv
      | setBase _ hbase => exact hbase.elim
      | _ => exact hkeep hv

end

/-- In the head of `s` that started at `c₀`, when `n` instructions have numbers, `x` takes steps
and its result satisfies `P`. The predicate gets the number of instructions after `x`, so that it
can say that its result has a number. -/
def Gen.Yields (x : Gen α) (s : Stm .cpp) (c₀ : Context) (n : Nat) (P : Nat → α → Prop) : Prop :=
  ∀ c a c', Steps (Stm.rights s c₀) c₀ c → n ≤ c.nextId → x.run c = .ok (a, c') →
    Steps (Stm.rights s c₀) c₀ c' ∧ n ≤ c'.nextId ∧ P c'.nextId a

namespace Gen.Yields

variable {s : Stm .cpp} {c₀ : Context} {n : Nat}

/-- The rule for a sequence. The second part may rely on what is known of the first result, at the
number of instructions that there are by then. -/
theorem bind {x : Gen α} {f : α → Gen β} {P : Nat → α → Prop} {Q : Nat → β → Prop}
    (hx : x.Yields s c₀ n P) (hf : ∀ a m, n ≤ m → P m a → (f a).Yields s c₀ m Q) :
    (x >>= f).Yields s c₀ n Q := by
  intro c b c' hc hn h
  obtain ⟨a, c₁, ha, hb⟩ := run_bind_ok.mp h
  obtain ⟨hc₁, hn₁, hP⟩ := hx c a c₁ hc hn ha
  obtain ⟨hc', hn', hQ⟩ := hf a c₁.nextId hn₁ hP c₁ b c' hc₁ (Nat.le_refl _) hb
  exact ⟨hc', Nat.le_trans hn₁ hn', hQ⟩

/-- The rule of consequence. -/
theorem mono {x : Gen α} {P Q : Nat → α → Prop} (hx : x.Yields s c₀ n P)
    (hPQ : ∀ m a, P m a → Q m a) : x.Yields s c₀ n Q := by
  intro c a c' hc hn h
  obtain ⟨hc', hn', hP⟩ := hx c a c' hc hn h
  exact ⟨hc', hn', hPQ _ _ hP⟩

/-- A result that is known already. -/
theorem pure {a : α} {P : Nat → α → Prop} (h : ∀ m, n ≤ m → P m a) :
    (Pure.pure a : Gen α).Yields s c₀ n P := by
  intro c a' c' hc hn hrun
  obtain ⟨rfl, rfl⟩ : a = a' ∧ c = c' := by simpa [run_ret] using hrun
  exact ⟨hc, hn, h _ hn⟩

/-- A value that is computed stays so. -/
theorem pureVal {v : Val} (h : AVal c₀ n v) : (Pure.pure v : Gen Val).Yields s c₀ n (AVal c₀) :=
  pure fun _ hm => h.mono hm

/-- Code that fails has no result to say anything about. -/
theorem fail {msg : String} {P : Nat → α → Prop} : (Gen.fail msg).Yields s c₀ n P :=
  fun _ _ _ _ _ h => absurd h run_fail_ok

/-- Code that only computes takes steps whatever it does. -/
theorem plain {x : Gen α} (hx : x.Plain) : x.Yields s c₀ n Anything := by
  intro c a c' hc hn h
  have hsteps : Steps (Stm.rights s c₀) c c' := hx.steps h
  exact ⟨hc.trans hsteps, Nat.le_trans hn hsteps.nextId_le, trivial⟩

/-- Code whose result is not a value, or is not needed. -/
theorem seq {x : Gen α} {f : α → Gen β} {Q : Nat → β → Prop} (hx : x.Plain)
    (hf : ∀ a m, n ≤ m → (f a).Yields s c₀ m Q) : (x >>= f).Yields s c₀ n Q :=
  bind (plain hx) fun a m hm _ => hf a m hm

/-- A new instruction with a pointer as its result. -/
theorem instPtr (o : IR.Op Sym) : (Gen.inst o ptrTy).Yields s c₀ n (NewPtr c₀) := by
  intro c v c' hc hn h
  cases h
  exact ⟨hc.tail (.emit c o), Nat.le_succ_of_le hn, c.nextId, rfl, hc.nextId_le,
    Nat.lt_succ_self _⟩

/-- A new instruction, whose result is at hand from then on. -/
theorem inst (o : IR.Op Sym) (ty : IR.Ty) : (Gen.inst o ty).Yields s c₀ n (AVal c₀) := by
  intro c v c' hc hn h
  cases h
  exact ⟨hc.tail (.emit c o), Nat.le_succ_of_le hn, .result hc.nextId_le (Nat.lt_succ_self _)⟩

/-- An instruction without a result. -/
theorem inst_ (o : IR.Op Sym) : (Gen.inst_ o).Yields s c₀ n Anything := by
  intro c u c' hc hn h
  cases h
  exact ⟨hc.tail (.emit c o), Nat.le_succ_of_le hn, trivial⟩

/-- A value that is there has the property if every value that can be there has it. -/
theorem deref {o : Option α} {msg : String} {P : Nat → α → Prop}
    (h : ∀ a m, o = some a → n ≤ m → P m a) : (Gen.deref o msg).Yields s c₀ n P := by
  cases o with
  | none => exact fail
  | some a => exact pure fun m hm => h a m rfl hm

/-- One of several values at hand. -/
theorem argAt {args : List Val} {i : Nat} (h : AVals c₀ n args) :
    (Codegen.argAt args i).Yields s c₀ n (AVal c₀) :=
  deref fun _ _ ha hm => (h _ (List.mem_of_getElem? ha)).mono hm

/-- A cast gives the value itself or a new one. -/
theorem createCast {op : IR.CastOp} {v : Val} {ty : IR.Ty} (hv : AVal c₀ n v) :
    (Codegen.createCast op v ty).Yields s c₀ n (AVal c₀) := by
  unfold Codegen.createCast
  split
  · exact pureVal hv
  · exact inst _ _

/-- A value as a pointer is the value or a new one. -/
theorem asPtr {v : Val} (hv : AVal c₀ n v) : (Codegen.asPtr v).Yields s c₀ n (AVal c₀) := by
  unfold Codegen.asPtr
  split
  · exact pureVal hv
  · split
    · exact createCast hv
    · exact fail

/-- The result of an operation is new. -/
theorem createBin (op : IR.BinOp) (a b : Val) : (Codegen.createBin op a b).Yields s c₀ n (AVal c₀) :=
  seq (.asInt a) fun _ _ _ => seq (.asInt b) fun _ _ _ => inst _ _

/-- A store of an ML value, after a cast of the address. -/
theorem createStoreML (v adr : Val) : (Codegen.createStoreML v adr).Yields s c₀ n Anything :=
  seq (.asPtr v) fun _ _ _ => seq (.asPtr adr) fun _ _ _ => inst_ _

/-- A store of an integer. -/
theorem createStoreInt (v adr : Val) : (Codegen.createStoreInt v adr).Yields s c₀ n Anything :=
  seq (.asPtr adr) fun _ _ _ => inst_ _

/-- The address of an element is a new pointer. -/
theorem createGEPTyConst (elemTy : IR.Ty) (base : Val) (idx : Int) :
    (Codegen.createGEPTyConst elemTy base idx).Yields s c₀ n (NewPtr c₀) :=
  seq (.asPtr base) fun _ _ _ => instPtr _

/-- A conversion to a pointer of what is one already is left out, so the value is still the one
that the head made. -/
theorem castPtr {op : IR.CastOp} {v : Val} (hv : NewPtr c₀ n v) :
    (Codegen.createCast op v ptrTy).Yields s c₀ n (NewPtr c₀) := by
  unfold Codegen.createCast
  split
  · exact pure fun _ hm => hv.mono hm
  · exact instPtr _

/-- A register is read from the stack or has a value that satisfies `P`. What is read from the
stack is a new pointer. -/
theorem mlReg_of {r : CMRegId} {P : Nat → Val → Prop} (hnew : ∀ m v, NewPtr c₀ m v → P m v)
    (hreg : ∀ c v, Steps (Stm.rights s c₀) c₀ c → c.regState.val r = some v → P c.nextId v) :
    (Codegen.mlReg r).Yields s c₀ n P := by
  intro c v c' hc hn h
  obtain ⟨o, c₁, ho, hrest⟩ := run_bind_ok.mp h
  obtain ⟨rfl, rfl⟩ : c.regState.val r = o ∧ c = c₁ := by simpa [run_ask] using ho
  cases hval : c.regState.val r with
  | none =>
      rw [hval] at hrest
      exact (seq (.ask _) fun t _ _ => (seq (.stkAddr _) fun _ _ _ => instPtr _).mono hnew)
        c v c' hc hn hrest
  | some reg =>
      rw [hval] at hrest
      cases hrest
      exact ⟨hc, hn, hreg _ _ hc hval⟩

/-- The value of a register is at hand. -/
theorem mlReg (r : CMRegId) : (Codegen.mlReg r).Yields s c₀ n (AVal c₀) :=
  mlReg_of (fun _ _ => NewPtr.aVal) fun _ _ hc hv => hc.regs hv

/-- The allocation pointer is the one from the start or one that the head made. -/
theorem allocPtr : (Codegen.mlReg .ALLOC_PTR).Yields s c₀ n (AllocVal c₀) :=
  mlReg_of (fun _ _ => .inr) fun _ _ hc hv => hc.allocPtr hv

/-- A register on the stack is stored to, and one that has a value gets another, for which the
head has the right if `NewReg` says so. -/
theorem setMLReg {r : CMRegId} {v : Val} (hv : AVal c₀ n v) (hnew : NewReg s c₀ n r v) :
    (Codegen.setMLReg r v).Yields s c₀ n Anything := by
  intro c u c' hc hn h
  obtain ⟨o, c₁, ho, hrest⟩ := run_bind_ok.mp h
  obtain ⟨rfl, rfl⟩ : c.regState.val r = o ∧ c = c₁ := by simpa [run_ask] using ho
  cases hval : c.regState.val r with
  | none =>
      rw [hval] at hrest
      exact seq (.ask _) (fun t _ _ => seq (.stkAddr _) fun _ _ _ => inst_ _) c u c' hc hn hrest
  | some reg =>
      rw [hval] at hrest
      cases hrest
      refine ⟨hc.tail (.setReg c ⟨by rw [hval]; rfl, v, ?_, hnew.mono hn, hv.mono hn⟩), hn, trivial⟩
      rw [hval]
      rfl

/-- A register gets a pointer that the head made. -/
theorem setMLRegPtr {r : CMRegId} {v : Val} (hv : NewPtr c₀ n v) :
    (Codegen.setMLReg r v).Yields s c₀ n Anything := setMLReg hv.aVal (.result hv)

/-- The fields of a record, one store after the other. -/
theorem initFields (allocPtr : Val) (args : List Val) (i : Nat) :
    (Codegen.initFields allocPtr args i).Yields s c₀ n Anything := by
  induction args generalizing i n with
  | nil => exact pure fun _ _ => trivial
  | cons arg args ih =>
      exact seq (.asPtr _) fun _ _ _ => seq (.inst rfl) fun _ _ _ =>
        bind (inst_ _) fun _ _ _ _ => ih _

/-- A record: its descriptor and fields are stored, and the allocation pointer becomes a new
pointer. -/
theorem allocRecord (desc : Val) (args : List Val) :
    (Codegen.allocRecord desc args).Yields s c₀ n (AVal c₀) := by
  refine seq (.assert _ _) fun _ _ _ => bind (mlReg _) fun allocPtr _ _ _ => ?_
  refine bind (inst_ _) fun _ _ _ _ => bind (initFields _ _ _) fun _ _ _ _ => ?_
  refine bind (inst _ _) fun adr _ _ hadr => bind (asPtr hadr) fun obj _ _ hobj => ?_
  refine bind (instPtr _) fun bumped k hk hbumped => bind (setMLRegPtr hbumped) fun _ m hm _ => ?_
  exact pureVal (hobj.mono (Nat.le_trans hk hm))

/-- The address of a label is a symbol, or computed from the base pointer. -/
theorem evalLabel (lab : LVar) : (Codegen.evalLabel lab).Yields s c₀ n (AVal c₀) := by
  refine seq (.ask _) fun cluster _ _ => seq (.deref _ _) fun cluster _ _ => ?_
  refine seq (.ask _) fun t _ _ => ?_
  cases t.hasPCRel with
  | true => exact seq (.memoize _) fun _ _ _ => pureVal (.other nofun)
  | false =>
      refine seq (.ask _) fun basePtr _ _ => seq (.deref _ _) fun basePtr _ _ => ?_
      refine seq (.ask _) fun curFn _ _ => seq (.deref _ _) fun curFn _ _ => ?_
      exact bind (createBin _ _ _) fun a _ _ ha => createCast ha

end Gen.Yields

namespace Gen.Yields

variable {s : Stm .cpp} {c₀ : Context} {n : Nat}

/-- One field of a raw record, cast to the type of its size. -/
theorem storeRawField (arg adr : Val) (elemTy : IR.Ty) (szb : Nat) :
    (Codegen.storeRawField arg adr elemTy szb).Yields s c₀ n Anything := by
  unfold Codegen.storeRawField
  split
  · exact seq (.assert _ _) fun _ _ _ => createStoreML _ _
  · exact seq (.assert _ _) fun _ _ _ => inst_ _

/-- The fields of a raw record, by induction on their list. -/
theorem initRawFields (obj : Val) (flds : List (CfgPrim.RawTy .cpp)) (args : List Val) (offset : Int) :
    (Codegen.initRawFields obj flds args offset).Yields s c₀ n Anything := by
  induction flds generalizing args offset n with
  | nil => exact pure fun _ _ => trivial
  | cons fld flds ih =>
      cases args with
      | nil => exact pure fun _ _ => trivial
      | cons arg args =>
          exact bind (createGEPTyConst _ _ _) fun adr _ _ _ =>
            bind (storeRawField _ _ _ _) fun _ _ _ _ => ih _ _

/-- The place of the descriptor is the allocation pointer, or a new pointer after the
alignment. -/
theorem rawAllocHeader (desc : Option Asdl.Integer) (align : Int) {allocPtr : Val}
    (h : AVal c₀ n allocPtr) : (Codegen.rawAllocHeader desc align allocPtr).Yields s c₀ n (AVal c₀) := by
  cases desc with
  | none => exact seq (.assert _ _) fun _ _ hm => pureVal (h.mono hm)
  | some desc =>
      have halign : (alignAllocPtr align allocPtr).Yields s c₀ n (AVal c₀) := by
        unfold alignAllocPtr
        split
        · exact seq (.createCast _ _ _) fun a _ _ => bind (createBin _ _ _) fun b _ _ hb =>
            createCast hb
        · exact pureVal h
      refine bind halign fun p _ _ hp => seq (.deref _ _) fun desc k hk => ?_
      exact bind (createStoreML _ _) fun _ m hm _ => pureVal (hp.mono (Nat.le_trans hk hm))

/-- A cell of the store list: the allocation pointer becomes the store pointer as it is, and is
then advanced. This is the one place where a register gets the value of another. -/
theorem recordStore (adr : Val) : (CfgPrim.recordStore adr).Yields s c₀ n Anything := by
  refine bind allocPtr fun allocPtr _ _ halloc => bind (mlReg _) fun storePtr k hk _ => ?_
  refine seq (.inst rfl) fun _ j hj => bind (createStoreML _ _) fun _ i hi _ => ?_
  refine seq (.inst rfl) fun _ l hl => bind (createStoreML _ _) fun _ m hm _ => ?_
  have halloc' : AllocVal c₀ m allocPtr := halloc.mono (by omega)
  refine bind (setMLReg halloc'.aVal (halloc'.elim .allocPtr .result)) fun _ _ _ _ => ?_
  exact bind (instPtr _) fun bumped _ _ hbumped => setMLRegPtr hbumped

end Gen.Yields

end SmlnjCfg.Codegen

namespace SmlnjCfg.CfgPrim

open Codegen Gen

variable {s : Cfg.Stm .cpp} {c₀ : Context} {n : Nat} {args : List Val}

/-- A pure operation returns an argument, a cast of one, or a new value. -/
theorem Pure.yields (p : Pure .cpp) (h : AVals c₀ n args) : (p.codegen args).Yields s c₀ n (AVal c₀) := by
  cases p with
  | PURE_ARITH oper sz =>
      cases oper with
      | undeclared tag => exact .fail
      | con op =>
          cases op
          case CNTPOP | FMADD | FABS | FCOPYSIGN | FSQRT => exact .inst _ _
          case CNTLZ | CNTTZ | FNEG => exact .seq (.argAt _ _) fun _ _ _ => .inst _ _
          case ROTL | ROTR | FADD | FSUB | FMUL | FDIV | FREM =>
            exact .seq (.argAt _ _) fun _ _ _ => .seq (.argAt _ _) fun _ _ _ => .inst _ _
          all_goals
            exact .seq (.deref _ _) fun _ _ _ => .seq (.argAt _ _) fun _ _ _ =>
              .seq (.asIntSz _ _) fun _ _ _ => .seq (.argAt _ _) fun _ _ _ =>
              .seq (.asIntSz _ _) fun _ _ _ => .createBin _ _ _
  | EXTEND signed fromSz toSz =>
      refine .bind (.argAt h) fun arg m hm harg => ?_
      split
      · split <;> exact .createCast harg
      · exact .seq (.assert _ _) fun _ k hk => .seq (.assert _ _) fun _ j hj =>
          .pureVal (harg.mono (Nat.le_trans hk hj))
  | TRUNC fromSz toSz => exact .bind (.argAt h) fun _ _ _ ha => .createCast ha
  | INT_TO_FLOAT fromSz toSz => exact .bind (.argAt h) fun _ _ _ ha => .createCast ha
  | FLOAT_TO_BITS sz => exact .bind (.argAt h) fun _ _ _ ha => .createCast ha
  | BITS_TO_FLOAT sz => exact .bind (.argAt h) fun _ _ _ ha => .createCast ha
  | PURE_SUBSCRIPT =>
      exact .seq (.argAt _ _) fun _ _ _ => .seq (.asPtr _) fun _ _ _ =>
        .seq (.argAt _ _) fun _ _ _ => .seq (.asInt _) fun _ _ _ =>
        .seq (.inst rfl) fun _ _ _ => .inst _ _
  | PURE_RAW_SUBSCRIPT kind sz =>
      exact .seq (.argAt _ _) fun _ _ _ => .seq (.argAt _ _) fun _ _ _ =>
        .seq (.createGEPTy _ _ _) fun _ _ _ => .inst _ _
  | RAW_SELECT kind sz offset =>
      exact .seq (.argAt _ _) fun _ _ _ => .seq (.asPtr _) fun _ _ _ =>
        .seq (.createGEPTy _ _ _) fun _ _ _ => .inst _ _

/-- A looker loads a new value or returns that of a register. -/
theorem Looker.yields (l : Looker .cpp) : (l.codegen args).Yields s c₀ n (AVal c₀) := by
  cases l with
  | DEREF =>
      exact .seq (.argAt _ _) fun _ _ _ => .seq (.asPtr _) fun _ _ _ => .inst _ _
  | SUBSCRIPT =>
      exact .seq (.argAt _ _) fun _ _ _ => .seq (.asPtr _) fun _ _ _ =>
        .seq (.argAt _ _) fun _ _ _ => .seq (.asInt _) fun _ _ _ =>
        .seq (.inst rfl) fun _ _ _ => .inst _ _
  | RAW_LOAD kind sz =>
      exact .seq (.argAt _ _) fun _ _ _ => .seq (.argAt _ _) fun _ _ _ =>
        .seq (.createGEPTy _ _ _) fun _ _ _ => .inst _ _
  | RAW_SUBSCRIPT kind sz =>
      exact .seq (.argAt _ _) fun _ _ _ => .seq (.argAt _ _) fun _ _ _ =>
        .seq (.createGEPTy _ _ _) fun _ _ _ => .inst _ _
  | GET_HDLR => exact .mlReg _
  | GET_VAR => exact .mlReg _

/-- An allocation returns a new object, or the value that the allocation pointer had. -/
theorem Alloc.yields (a : Alloc .cpp) : (a.codegen args).Yields s c₀ n (AVal c₀) := by
  cases a with
  | SPECIAL =>
      exact .seq (.assert _ _) fun _ _ _ => .seq (.argAt _ _) fun _ _ _ =>
        .seq (.asInt _) fun _ _ _ => .seq (.argAt _ _) fun _ _ _ => .allocRecord _ _
  | RECORD desc isMut => exact .seq (.deref _ _) fun _ _ _ => .allocRecord _ _
  | RAW_RECORD desc isMut fields =>
      refine .bind (.mlReg _) fun allocPtr _ _ _ => .seq (.assert _ _) fun _ _ _ => ?_
      refine .seq (.deref _ _) fun desc _ _ => .bind (.createStoreInt _ _) fun _ _ _ _ => ?_
      refine .bind (.inst _ _) fun adr _ _ hadr => .bind (.asPtr hadr) fun obj _ _ hobj => ?_
      refine .bind (.initRawFields _ _ _ _) fun offset i hi _ => ?_
      refine .bind (.instPtr _) fun bumped j hj hbumped => ?_
      exact .bind (.setMLRegPtr hbumped) fun _ k hk _ => .pureVal (hobj.mono (by omega))
  | RAW_ALLOC desc align len =>
      refine .bind (.mlReg _) fun allocPtr _ _ halloc => ?_
      refine .bind (.rawAllocHeader desc align halloc) fun allocPtr _ _ _ => ?_
      refine .bind (.inst _ _) fun adr _ _ hadr => .bind (.createCast hadr) fun obj _ _ hobj => ?_
      refine .bind (.createGEPTyConst _ _ _) fun bumped i hi hbumped => ?_
      refine .bind (.castPtr hbumped) fun bumped j hj hbumped => ?_
      exact .bind (.setMLRegPtr hbumped) fun _ k hk _ => .pureVal (hobj.mono (by omega))

/-- A setter, if its operand may become the value of its register. The hypothesis is about two of
the setters only; the others store to memory, and some of them note the address. -/
theorem Setter.yields (oper : Setter .cpp) (h : AVals c₀ n args)
    (hoper : ∀ r v, oper.reg = some r → args[0]? = some v → NewReg s c₀ n r v) :
    (oper.codegen args).Yields s c₀ n Anything := by
  have hset : ∀ r, oper.reg = some r → (do Codegen.setMLReg r (← Codegen.argAt args 0) :
      Gen Unit).Yields s c₀ n Anything := by
    intro r hr
    refine .bind (P := fun m v => AVal c₀ m v ∧ NewReg s c₀ m r v) (.deref fun v m hv hm => ?_)
      fun v _ _ hv => .setMLReg hv.1 hv.2
    exact ⟨(h v (List.mem_of_getElem? hv)).mono hm, (hoper r v hr hv).mono hm⟩
  cases oper with
  | UNBOXED_UPDATE =>
      exact .seq (.argAt _ _) fun _ _ _ => .seq (.argAt _ _) fun _ _ _ =>
        .seq (.createGEPTy _ _ _) fun _ _ _ => .seq (.argAt _ _) fun _ _ _ => .createStoreML _ _
  | UPDATE =>
      exact .seq (.argAt _ _) fun _ _ _ => .seq (.argAt _ _) fun _ _ _ =>
        .seq (.createGEPTy _ _ _) fun _ _ _ => .bind (.recordStore _) fun _ _ _ _ =>
        .seq (.argAt _ _) fun _ _ _ => .createStoreML _ _
  | UNBOXED_ASSIGN =>
      exact .seq (.argAt _ _) fun _ _ _ => .seq (.asInt _) fun _ _ _ =>
        .seq (.argAt _ _) fun _ _ _ => .seq (.asPtr _) fun _ _ _ => .inst_ _
  | ASSIGN =>
      exact .seq (.argAt _ _) fun _ _ _ => .bind (.recordStore _) fun _ _ _ _ =>
        .seq (.argAt _ _) fun _ _ _ => .createStoreML _ _
  | RAW_UPDATE kind sz =>
      refine .seq (.argAt _ _) fun _ _ _ => .seq (.argAt _ _) fun _ _ _ =>
        .seq (.createGEPTy _ _ _) fun _ _ _ => .seq (.argAt _ _) fun v _ _ => ?_
      split
      · exact .seq (.assert _ _) fun _ _ _ => .createStoreML _ _
      · exact .inst_ _
  | RAW_STORE kind sz =>
      exact .seq (.argAt _ _) fun _ _ _ => .seq (.argAt _ _) fun _ _ _ =>
        .seq (.createGEPTy _ _ _) fun _ _ _ => .seq (.argAt _ _) fun _ _ _ => .inst_ _
  | SET_HDLR => exact hset _ rfl
  | SET_VAR => exact hset _ rfl

end SmlnjCfg.CfgPrim

namespace SmlnjCfg.Cfg

open Codegen Gen

variable {s : Stm .cpp} {c₀ : Context}

mutual

/-- The value of an expression is at hand, by recursion on the expression. -/
theorem Exp.yields : (e : Exp .cpp) → {n : Nat} → e.codegen.Yields s c₀ n (AVal c₀)
  | .VAR name, n => by
      intro c v c' hc hn h
      obtain ⟨o, c₁, ho, hrest⟩ := run_bind_ok.mp h
      obtain ⟨rfl, rfl⟩ : c.vMap name = o ∧ c = c₁ := by simpa [run_ask] using ho
      obtain ⟨hv, rfl⟩ := run_deref_ok.mp hrest
      exact ⟨hc, hn, (hc.vMap hv).elim (fun h => .given (.inl ⟨name, h⟩)) id⟩
  | .LABEL name, n => .evalLabel name
  | .NUM iv sz, n => by
      unfold Exp.codegen
      split
      · exact .seq (.deref _ _) fun _ _ _ => .pureVal (.other nofun)
      · exact .seq (.deref _ _) fun _ _ _ => .pureVal (.other nofun)
  | .LOOKER oper args, n => by
      unfold Exp.codegen
      exact .bind (Exp.yields_args args) fun vs _ _ _ => oper.yields
  | .PURE oper args, n => by
      unfold Exp.codegen
      exact .bind (Exp.yields_args args) fun vs _ _ hvs => oper.yields hvs
  | .SELECT idx arg, n => by
      unfold Exp.codegen
      exact .bind (Exp.yields arg) fun v _ _ _ => .seq (.asPtr _) fun _ _ _ =>
        .seq (.inst rfl) fun _ _ _ => .inst _ _

/-- So are the values of arguments. Those that were computed first are at hand when the others
are. -/
theorem Exp.yields_args : (es : List (Exp .cpp)) → {n : Nat} →
    (Exp.codegenArgs es).Yields s c₀ n (AVals c₀)
  | [], n => .pure fun _ _ _ hv => absurd hv (List.not_mem_nil)
  | e :: es, n => by
      unfold Exp.codegenArgs
      refine .bind (Exp.yields e) fun v _ _ hv => .bind (Exp.yields_args es) fun vs k hk hvs => ?_
      refine .pure fun m hm w hw => ?_
      rcases List.mem_cons.mp hw with rfl | hw
      · exact hv.mono (Nat.le_trans hk hm)
      · exact (hvs w hw).mono hm

end

end SmlnjCfg.Cfg

namespace SmlnjCfg.Codegen

open Cfg Gen

variable {α β : Type}

/-! ### Statements -/

namespace Gen.Plain

/-- A look at the target and the cluster. -/
theorem getArgInfo (kind : Tagged FragKind) : (Codegen.getArgInfo kind).Plain := by
  refine bind (ask _) fun t => bind (ask _) fun needs => ?_
  cases kind with
  | con kind => exact pure _
  | undeclared tag => exact fail _

/-- The registers and the base pointer as arguments. They are looked at only. -/
theorem createArgs (kind : Tagged FragKind) : (Codegen.createArgs kind).Plain := by
  have hextra : ∀ (rs : CMRegState) regs, (addExtraArgs rs regs).Plain := by
    intro rs regs
    induction regs with
    | nil => exact pure _
    | cons r regs ih => exact bind (deref _ _) fun v => bind ih fun vs => pure _
  refine bind (getArgInfo kind) fun info => bind (ask _) fun t => bind (ask _) fun rs => ?_
  refine bind (hextra _ _) fun extra => bind ?_ fun base => pure _
  unfold addBaseArg
  split
  · exact pure _
  · exact bind (deref _ _) fun basePtr => pure _

/-- The roots of a collection, cast to pointers. -/
theorem rootArgs (roots : List (Exp .cpp)) : (Codegen.rootArgs roots).Plain := by
  induction roots with
  | nil => exact pure _
  | cons e es ih => exact bind e.plain fun v => bind (asPtr _) fun v => bind ih fun vs => pure _

/-- A cast to the type of a parameter, which may be none. -/
theorem castToTy (tgtTy : IR.Ty) (arg : Val) : (Codegen.castToTy tgtTy arg).Plain := by
  unfold Codegen.castToTy castTy
  split
  · split
    · split <;> exact createCast _ _ _
    · split
      · exact createCast _ _ _
      · exact fail _
  · exact pure _

/-- The arguments of a call, each computed and then cast. -/
theorem castArgs (fnTy : List IR.Ty) (es : List (Exp .cpp)) (i : Nat) :
    (Codegen.castArgs fnTy es i).Plain := by
  induction es generalizing i with
  | nil => exact pure _
  | cons e es ih =>
      exact bind e.plain fun v => bind (deref _ _) fun ty => bind (castToTy _ _) fun v =>
        bind (ih _) fun vs => pure _

/-- The arguments of a call, after the registers. -/
theorem setupStdArgs (fnTy : List IR.Ty) (fk : Tagged FragKind) (es : List (Exp .cpp)) :
    (Codegen.setupStdArgs fnTy fk es).Plain :=
  bind (createArgs fk) fun _ => bind (castArgs _ _ _) fun _ => pure _

/-- The function that is called: a label, or a value that is cast to a pointer. -/
theorem callee (fn : Exp .cpp) (kind : FragKind) (tys : List Ty) (what : String) :
    (Codegen.callee fn kind tys what).Plain := by
  unfold Codegen.callee
  cases isLABEL fn with
  | none =>
      refine bind (bind (bind (getArgInfo _) fun info => pure _) fun tys => pure _) fun fnTy => ?_
      exact bind fn.plain fun f => bind (createCast _ _ _) fun f => pure _
  | some lab =>
      exact bind (ask _) fun f => bind (deref _ _) fun f => bind (deref _ _) fun entry => pure _

end Gen.Plain

/-- The test of a branch computes one bit. `LIMIT` reads two registers and sets none. -/
theorem CfgPrim.Branch.plain (args : List Val) (oper : CfgPrim.Branch .cpp) :
    (oper.codegen args).Plain := by
  have hicmp : ∀ pred a b, (createICmp pred a b).Plain := fun pred a b =>
    .bind (.asInt a) fun a => .bind (.asInt b) fun b => .inst rfl
  have htable : ∀ {α ε : Type} (table : List α) (oper : Tagged ε) idx,
      (CfgPrim.tableAt table oper idx).Plain := by
    intro α ε table oper idx
    cases oper with
    | con op => exact .deref _ _
    | undeclared tag => exact .fail _
  cases oper with
  | CMP oper signed sz =>
      exact .bind (htable _ _ _) fun pred => .bind (.argAt _ _) fun a => .bind (.asIntSz _ _)
        fun a => .bind (.argAt _ _) fun b => .bind (.asIntSz _ _) fun b => hicmp _ _ _
  | FCMP oper sz =>
      exact .bind (htable _ _ _) fun pred => .bind (.argAt _ _) fun a => .bind (.argAt _ _)
        fun b => .inst rfl
  | FSGN sz =>
      exact .bind (.argAt _ _) fun a => .bind (.createCast _ _ _) fun a => hicmp _ _ _
  | PEQL => exact .bind (.argAt _ _) fun a => .bind (.argAt _ _) fun b => hicmp _ _ _
  | PNEQ => exact .bind (.argAt _ _) fun a => .bind (.argAt _ _) fun b => hicmp _ _ _
  | LIMIT amt =>
      refine .bind (.ask _) fun t => ?_
      by_cases hamt : amt > t.allocSlopSzb
      all_goals simp only [hamt, if_true, if_false]
      · exact .bind (.mlReg _) fun p => .bind (.createBin _ _ _) fun a => .bind (.mlReg _) fun l =>
          .bind (.asInt _) fun l => hicmp _ _ _
      · exact .bind (.mlReg _) fun p => .bind (.asInt _) fun a => .bind (.mlReg _) fun l =>
          .bind (.asInt _) fun l => hicmp _ _ _

/-- As `Gen.Yields`, for code generation that may end blocks. -/
def CodegenM.Yields (x : CodegenM α) (s : Stm .cpp) (c₀ : Context) (n : Nat)
    (P : Nat → α → Prop) : Prop :=
  ∀ c a c', Steps (Stm.rights s c₀) c₀ c → n ≤ c.nextId → x c = .ok (a, c') →
    Steps (Stm.rights s c₀) c₀ c' ∧ n ≤ c'.nextId ∧ P c'.nextId a

namespace CodegenM.Yields

variable {s : Stm .cpp} {c₀ : Context} {n : Nat}

/-- The rule for a sequence. -/
theorem bind {x : CodegenM α} {f : α → CodegenM β} {P : Nat → α → Prop} {Q : Nat → β → Prop}
    (hx : x.Yields s c₀ n P) (hf : ∀ a m, n ≤ m → P m a → (f a).Yields s c₀ m Q) :
    (x >>= f).Yields s c₀ n Q := by
  intro c b c' hc hn h
  obtain ⟨a, c₁, ha, hb⟩ := CodegenM.bind_ok.mp h
  obtain ⟨hc₁, hn₁, hP⟩ := hx c a c₁ hc hn ha
  obtain ⟨hc', hn', hQ⟩ := hf a c₁.nextId hn₁ hP c₁ b c' hc₁ (Nat.le_refl _) hb
  exact ⟨hc', Nat.le_trans hn₁ hn', hQ⟩

/-- A result. -/
theorem pure (a : α) : (Pure.pure a : CodegenM α).Yields s c₀ n Anything := by
  intro c b c' hc hn hrun
  obtain ⟨rfl, rfl⟩ := CodegenM.pure_ok.mp hrun
  exact ⟨hc, hn, trivial⟩

/-- Straight-line code, with what is known of its result. -/
theorem lift {g : Gen α} {P : Nat → α → Prop} (h : g.Yields s c₀ n P) :
    (liftM g : CodegenM α).Yields s c₀ n P := h

/-- Straight-line code that only computes. -/
theorem plain {g : Gen α} (h : g.Plain) : (liftM g : CodegenM α).Yields s c₀ n Anything :=
  Gen.Yields.plain h

/-- A look at the context. -/
theorem get : (MonadState.get : CodegenM Context).Yields s c₀ n Anything := by
  intro c b c' hc hn h
  cases h
  exact ⟨hc, hn, trivial⟩

/-- A variable of the statement may be bound to a value at hand. -/
theorem insertVal {lv : LVar} {v : Val} (hlv : lv ∈ s.binds) (hv : AVal c₀ n v) :
    (Codegen.insertVal lv v).Yields s c₀ n Anything := by
  intro c u c' hc hn h
  cases h
  exact ⟨hc.tail (.bind c hlv (hv.mono hn)), hn, trivial⟩

/-- The end of the block. -/
theorem createTerm (t : IR.Terminator BBId Sym) :
    (Codegen.createTerm t).Yields s c₀ n Anything := by
  intro c u c' hc hn h
  cases h
  exact ⟨hc.tail (.term c t), hn, trivial⟩

/-- A call that ends the path. -/
theorem createJWACall (fn : Val) (args : List Val) :
    (Codegen.createJWACall fn args).Yields s c₀ n Anything := by
  intro c u c' hc hn h
  cases h
  exact ⟨hc.tail (.exitCall c true fn args), hn, trivial⟩

/-- The new roots, which are components of the result of the collector and bound one by one. -/
theorem extractRoots (call : Nat) {lvs : List LVar} (hlvs : ∀ lv ∈ lvs, lv ∈ s.binds) (ix : Nat) :
    (Codegen.extractRoots call lvs ix).Yields s c₀ n Anything := by
  induction lvs generalizing ix n with
  | nil => exact pure _
  | cons lv lvs ih =>
      obtain ⟨hlv, hlvs⟩ := List.forall_mem_cons.mp hlvs
      exact bind (lift (.inst _ _)) fun v _ _ hv => bind (insertVal hlv hv) fun _ _ _ _ => ih hlvs _

/-- A collection: a call, then a new value for each register that was passed, and the new roots.
The registers on the stack are not passed, and nothing is generated for them. -/
theorem callGC (roots : List Val) {newRoots : List LVar} (h : ∀ lv ∈ newRoots, lv ∈ s.binds) :
    (Codegen.callGC roots newRoots).Yields s c₀ n Anything := by
  have hcall : ∀ {m : Nat}, (createGCCall roots).Yields s c₀ m Anything := by
    intro m
    refine .seq (.ask _) fun t _ _ => .seq (.assert _ _) fun _ _ _ => ?_
    refine .seq (.loadFromStack _) fun f _ _ => .seq (.createCast _ _ _) fun f _ _ => ?_
    intro c call c' hc hm h
    cases h
    exact ⟨hc.tail (.emit c _), Nat.le_succ_of_le hm, trivial⟩
  have hregs : ∀ {m : Nat} call regs ix, (extractRegs call regs ix).Yields s c₀ m Anything := by
    intro m call regs ix
    induction regs generalizing ix m with
    | nil => exact .pure fun _ _ => trivial
    | cons r regs ih =>
        exact .bind (.instPtr _) fun reg _ _ hreg => .bind (.setMLRegPtr hreg) fun _ _ _ _ => ih _
  refine bind get fun c _ _ _ => bind (lift hcall) fun call _ _ _ => ?_
  exact bind (lift (hregs _ _ _)) fun _ _ _ _ => extractRoots _ h _

/-- The values of a `GOTO`, which come from the block that the head started in. -/
theorem addFragIncoming (hs : s.kids = .stop) (phis : List (Nat × IR.Ty)) (args : List Val)
    (i : Nat) : (Codegen.addFragIncoming c₀.curBB phis args i).Yields s c₀ n Anything := by
  induction args generalizing i n with
  | nil => exact pure _
  | cons arg args ih =>
      refine bind (plain (.deref _ _)) fun p _ _ _ => bind (plain (.castToTy _ _)) fun v _ _ _ => ?_
      refine bind (P := Anything) ?_ fun _ _ _ _ => ih _
      intro c u c' hc hn h
      rw [← hc.curBB] at h
      cases h
      exact ⟨hc.tail (.incoming c p.1 v hs), hn, trivial⟩

end CodegenM.Yields

/-- The head takes steps, then the test for overflow, and then binds the result of the operation.
The result is at hand before the test, so it was computed in the block that the test ends. -/
def Stm.TrapSteps (s : Stm .cpp) (c c' : Context) : Prop :=
  ∃ (c₁ c₂ : Context) (obit res : Val) (lv : LVar), Steps (Stm.rights s c) c c₁ ∧
    overflowBranch obit res c₁ = .ok (res, c₂) ∧ lv ∈ s.binds ∧ AVal c c₁.nextId res ∧
    insertVal lv res c₂ = .ok ((), c')

/-- `ARITH::codegen` and the binding of its result. Addition, subtraction and multiplication trap;
division and the conversion of floating-point numbers take steps only. -/
theorem arith_steps {s : Stm .cpp} {c₀ c c₁ c' : Context} {args : List Val}
    {oper : CfgPrim.Arith .cpp} {lv : LVar} {v : Val} (hlv : lv ∈ s.binds)
    (hc : Steps (Stm.rights s c₀) c₀ c) (hargs : AVals c₀ c.nextId args)
    (h : oper.codegen args c = .ok (v, c₁)) (hbind : insertVal lv v c₁ = .ok ((), c')) :
    Steps (Stm.rights s c₀) c₀ c' ∨ Stm.TrapSteps s c₀ c' := by
  have hsteps : (oper.codegen args).Yields s c₀ c.nextId (AVal c₀) →
      Steps (Stm.rights s c₀) c₀ c' := by
    intro hy
    obtain ⟨hc₁, -, hv⟩ := hy c v c₁ hc (Nat.le_refl _) h
    exact (CodegenM.Yields.insertVal hlv hv c₁ () c' hc₁ (Nat.le_refl _) hbind).1
  cases oper with
  | FLOAT_TO_INT mode fromSz toSz =>
      exact .inl (hsteps (.bind (.lift (.argAt hargs)) fun a _ _ ha => .lift (.createCast ha)))
  | ARITH oper sz =>
      cases oper with
      | undeclared tag =>
          refine .inl (hsteps ?_)
          refine .bind (.plain (.assert _ _)) fun _ _ _ _ => .bind (.plain (.argAt _ _)) fun _ _ _ _ => ?_
          refine .bind (.plain (.asIntSz _ _)) fun _ _ _ _ => .bind (.plain (.argAt _ _)) ?_
          exact fun _ _ _ _ => .bind (.plain (.asIntSz _ _)) fun _ _ _ _ => .lift .fail
      | con op =>
          have hoperands : (CfgPrim.Arith.operands sz args).Plain :=
            .bind (.assert _ _) fun _ => .bind (.argAt _ _) fun a => .bind (.asIntSz _ _) fun a =>
              .bind (.argAt _ _) fun b => .bind (.asIntSz _ _) fun b => .pure _
          rw [CfgPrim.Arith.codegen_eq] at h hsteps
          cases hop : op.overflowOp with
          | none =>
              rw [hop] at hsteps
              exact .inl (hsteps (.bind (.plain hoperands) fun p _ _ _ => .lift (.createBin _ _ _)))
          | some o =>
              rw [hop] at h
              obtain ⟨p, c₂, h₂, h₃⟩ := CodegenM.bind_ok.mp h
              obtain ⟨q, c₃, h₄, h₅⟩ := CodegenM.bind_ok.mp h₃
              have hc₂ : Steps (Stm.rights s c₀) c₀ c₂ := hc.trans (hoperands.steps h₂)
              -- the operation and the two parts of its result are three instructions
              have hc₃ : Steps (Stm.rights s c₀) c₀ c₃ ∧ AVal c₀ c₃.nextId q.1 := by
                cases h₄
                have hlo := hc₂.nextId_le
                refine ⟨((hc₂.tail (.emit _ _)).tail (.emit _ _)).tail (.emit _ _), .result ?_ ?_⟩
                · show c₀.nextId ≤ c₂.nextId + 1
                  omega
                · show c₂.nextId + 1 < c₂.nextId + 1 + 1 + 1
                  omega
              obtain ⟨rfl, -⟩ := overflowBranch_ok h₅
              exact .inr ⟨c₃, c₁, q.2, q.1, lv, hc₃.1, h₅, hlv, hc₃.2, hbind⟩

/-- The head of a statement takes steps, and an operation that may overflow ends them with the
test for overflow. -/
theorem Stm.head_steps {frag : Nat} {s : Stm .cpp} {path : List Nat} {c c' : Context}
    (h : s.head frag path c = .ok ((), c')) :
    Steps (Stm.rights s c) c c' ∨ Stm.TrapSteps s c c' := by
  have hsteps : ∀ {x : CodegenM Unit}, x c = .ok ((), c') → x.Yields s c c.nextId Anything →
      Steps (Stm.rights s c) c c' ∨ Stm.TrapSteps s c c' :=
    fun hrun hy => .inl (hy c () c' .refl (Nat.le_refl _) hrun).1
  cases s with
  | LET exp param k =>
      exact hsteps h (.bind (.lift exp.yields) fun v _ _ hv => .insertVal List.mem_cons_self hv)
  | ALLOC oper args lhs k =>
      exact hsteps h (.bind (.lift (Exp.yields_args args)) fun vs _ _ hvs =>
        .bind (.lift oper.yields) fun v _ _ hv => .insertVal List.mem_cons_self hv)
  | APPLY fn args tys =>
      refine hsteps h (.bind (.plain (.callee _ _ _ _)) fun p _ _ _ => .bind .get fun c _ _ _ => ?_)
      refine .bind (.plain (.assert _ _)) fun _ _ _ _ => .bind (.plain (.setupStdArgs _ _ _)) ?_
      exact fun vs _ _ _ => .bind (.createJWACall _ _) fun _ _ _ _ => .createTerm _
  | THROW fn args tys =>
      refine hsteps h (.bind (.plain (.callee _ _ _ _)) fun p _ _ _ => .bind .get fun c _ _ _ => ?_)
      refine .bind (.plain (.assert _ _)) fun _ _ _ _ => .bind (.plain (.setupStdArgs _ _ _)) ?_
      exact fun vs _ _ _ => .bind (.createJWACall _ _) fun _ _ _ _ => .createTerm _
  -- The values of the phi nodes come from the block that the head started in, which is still
  -- current.
  | GOTO lab args =>
      -- the block that the values come from is read at the start
      have hrest : (do
          let dstFrag ← liftM (deref ((← MonadState.get).fragMap lab) "GOTO of unknown fragment")
          liftM (assert (dstFrag.frag.kind = .con .INTERNAL) "not an internal fragment")
          let extra ← liftM (createArgs (.con .INTERNAL))
          let vs ← liftM (Exp.codegenArgs args)
          addFragIncoming c.curBB dstFrag.phiNodes (extra ++ vs) 0
          createTerm (.br dstFrag.bb) : CodegenM Unit) c = .ok ((), c') := h
      refine hsteps hrest (.bind .get fun c _ _ _ => .bind (.plain (.deref _ _)) fun dst _ _ _ => ?_)
      refine .bind (.plain (.assert _ _)) fun _ _ _ _ => ?_
      refine .bind (.plain (.createArgs _)) fun extra _ _ _ => ?_
      refine .bind (.plain (Exp.plain_args args)) fun vs _ _ _ => ?_
      exact .bind (.addFragIncoming rfl _ _ _) fun _ _ _ _ => .createTerm _
  | SWITCH arg cases =>
      refine hsteps h (.bind (.plain arg.plain) fun v _ _ _ => .bind (.plain (.asInt _)) ?_)
      refine fun v _ _ _ => .bind (.plain (.createCast _ _ _)) fun v _ _ _ c₁ u c' hc hn h => ?_
      cases h
      exact ⟨(hc.tail (.deadBlock c₁)).tail (.term _ _), hn, trivial⟩
  | BRANCH oper args prob trueK falseK =>
      refine hsteps h (.bind (.plain (Exp.plain_args args)) fun vs _ _ _ => ?_)
      exact .bind (.plain (CfgPrim.Branch.plain vs oper)) fun cond _ _ _ => .createTerm _
  | ARITH oper args param k =>
      obtain ⟨vs, c₁, h₁, h₂⟩ := CodegenM.bind_ok.mp h
      obtain ⟨v, c₂, h₃, h₄⟩ := CodegenM.bind_ok.mp h₂
      obtain ⟨hc₁, -, hvs⟩ := Exp.yields_args args c vs c₁ .refl (Nat.le_refl _) h₁
      exact arith_steps List.mem_cons_self hc₁ hvs h₃ h₄
  | SETTER oper args k =>
      obtain ⟨vs, c₁, h₁, h₂⟩ := CodegenM.bind_ok.mp h
      obtain ⟨hc₁, -, hvs⟩ := Exp.yields_args args c vs c₁ .refl (Nat.le_refl _) h₁
      exact .inl (oper.yields hvs (fun r v hr hv => .operand rfl hr h₁ hv) c₁ () c' hc₁
        (Nat.le_refl _) h₂).1
  | CALLGC roots newRoots k =>
      exact hsteps h (.bind (.plain (.createArgs _)) fun extra _ _ _ =>
        .bind (.plain (.rootArgs _)) fun vs _ _ _ => .callGC _ fun _ hlv => hlv)
  | RCC reentrant linkage proto args results live k => exact hsteps h (.lift .fail)

/-- A reflexive and transitive relation of contexts holds for the head of a statement, if it
holds for single steps and for the test for overflow. The binding after the test is a step like
others. -/
theorem Stm.head_preorder {P : Context → Context → Prop} {frag : Nat} {s : Stm .cpp}
    {path : List Nat} {c c' : Context} (h : s.head frag path c = .ok ((), c'))
    (hrefl : ∀ c, P c c) (htrans : ∀ {c c₁ c'}, P c c₁ → P c₁ c' → P c c')
    (hstep : ∀ {c₁ c₂}, Step (Stm.rights s c) c₁ c₂ → P c₁ c₂)
    (htrap : ∀ {obit res c₁ c₂}, overflowBranch obit res c₁ = .ok (res, c₂) → P c₁ c₂) :
    P c c' := by
  rcases Stm.head_steps h with hsteps | ⟨c₁, c₂, obit, res, lv, hsteps, hbr, hlv, hres, hbind⟩
  · exact hsteps.preorder hrefl htrans hstep
  · have hle := (overflowBranch_env hbr).2.1
    cases hbind
    exact htrans (htrans (hsteps.preorder hrefl htrans hstep) (htrap hbr))
      (hstep (.bind c₂ hlv (hres.mono hle)))

/-- The same for all that is generated for a statement, arms or fragments, by induction on what is
generated. Between the heads there are the starts of arms, where the registers are restored, and
those of fragments. -/
theorem Emits.preorder {P : Context → Context → Prop} {code : Code} {c c' : Context}
    (h : Emits code c c') (hrefl : ∀ c, P c c)
    (htrans : ∀ {c c₁ c'}, P c c₁ → P c₁ c' → P c c')
    (hstep : ∀ {R : Rights} {c₁ c₂}, Step R c₁ c₂ → P c₁ c₂)
    (htrap : ∀ {obit res c₁ c₂}, overflowBranch obit res c₁ = .ok (res, c₂) → P c₁ c₂)
    (harm : ∀ frag saved path i c, P c (armStart frag saved path i c))
    (hfrag : ∀ c bb, P c (Context.atFrag c bb)) : P c c' := by
  have hhead : ∀ {frag : Nat} {s : Stm .cpp} {path : List Nat} {c c' : Context},
      s.head frag path c = .ok ((), c') → P c c' :=
    fun h => Stm.head_preorder h hrefl htrans hstep htrap
  induction h with
  | stop _ h => exact hhead h
  | next _ h _ ih => exact htrans (hhead h) ih
  | arms _ h _ ih => exact htrans (hhead h) ih
  | noArm => exact hrefl _
  | arm _ _ iharm ihrest => exact htrans (htrans (harm _ _ _ _ _) iharm) ihrest
  | noFrag => exact hrefl _
  | frag _ hstart _ _ ihbody ihrest =>
      have hfirst := (fragStart_steps hstart).preorder hrefl htrans hstep
      exact htrans (htrans (htrans (hfrag _ _) hfirst) ihbody) ihrest

end SmlnjCfg.Codegen
