import SmlnjCfg.Codegen.Eval
import SmlnjCfg.Codegen.RawAlloc

/-!
# `SmlnjCfg.Codegen.Effects`: the code of allocations, updates and tests

The code of an operation that changes the state makes the stores of the machine,
in the order of the machine, and gives the registers the same words.

* `Alloc.does_eval`, `Setter.does_eval`: the state after the operation.
* `Branch.does_eval`: the bit of a test.
-/

set_option autoImplicit false

namespace SmlnjCfg.CfgPrim

open Cfg Codegen Gen IR

variable {act : Activation Sym} {M : Machine} {ρ : Env} {σ : MState} {c : Context} {s : State}
  {us : List Val} {vs : List MLVal}

/-! ### Allocation -/

/-- The address of a word after the ones before it. The index of a field is a constant of the
code, so it has to stay within the 32 bits of an index. -/
theorem add_words (p : Word) (n : Nat) :
    p + BitVec.ofInt 64 ((n : Int) * 8) + 8 = p + BitVec.ofInt 64 (((n + 1 : Nat) : Int) * 8) := by
  have hsplit : ((n + 1 : Nat) : Int) * 8 = (n : Int) * 8 + 8 := by omega
  rw [hsplit, BitVec.ofInt_add, ← BitVec.add_assoc]
  rfl

/-- The fields of a record are stored in order, from the word after the descriptor on. -/
theorem does_initFields {ptr : Val} {p : Word} (hty : ptr.getType = ptrTy) {i : Nat}
    (hi : i + us.length ≤ 2147483647) (ht : Tracks act M ρ σ c s) (hp : Is act c s ptr p)
    (hus : List.Forall₂ (Holds act c s) us vs) :
    (initFields ptr us i).Does act c s fun _ c' s' => Later c c' s s' ∧
      Tracks act M ρ (σ.storeAll (p + BitVec.ofInt 64 (i * 8)) (vs.map (·.word))) c' s' := by
  induction us generalizing i σ c s vs with
  | nil =>
      cases hus
      exact .pure ⟨.refl c s, ht⟩
  | cons u us ih =>
      obtain _ | ⟨hu, hus⟩ := hus
      rw [List.length_cons] at hi
      refine .bind (.asPtr hu.is hu.ptrOrInt fun u' c₁ s₁ hq₁ hu' htu' => ?_)
      have hp₁ := hp.later hq₁.toLater
      refine .bind (.createGEPConst hp₁ hty (by omega) (by omega)
        fun adr c₂ s₂ hq₂ hadr hta => .bind ?_)
      have hq := hq₁.trans hq₂
      refine .storeWord (ht.quiet hq) (.ofPtr (hu'.later hq₂.toLater) htu') hadr hta
        fun c₃ s₃ hl₃ ht₃ => ?_
      have hl := hq.toLater.trans hl₃
      have hrest := ih (i := i + 1) (by omega) ht₃ (hp.later hl) (hus.imp fun _ _ h => h.later hl)
      rw [← add_words] at hrest
      exact hrest.mono fun _ c' s' h => ⟨hl.trans h.1, h.2⟩

/-- A new record: the descriptor and the fields are stored, the allocation pointer moves past
them, and the result is the address of the first field. -/
theorem does_allocRecord {desc : Val} {d w : Word} {σ' : MState}
    (hd : Is act c s desc d) (htd : desc.getType = intTy) (ht : Tracks act M ρ σ c s)
    (hus : List.Forall₂ (Holds act c s) us vs)
    (h : allocWords M σ d (vs.map (·.word)) = some (w, σ')) :
    (allocRecord desc us).Does act c s fun u c' s' => Later c c' s s' ∧
      Tracks act M ρ σ' c' s' ∧ Holds act c' s' u (.ml w) := by
  obtain ⟨hlen, h⟩ := Option.ite_none_right_eq_some.mp h
  cases h
  rw [List.length_map] at hlen ⊢
  have hlen' : us.length + 1 ≤ 2147483647 := by
    rw [hus.length_eq]
    exact Nat.le_of_lt_succ hlen
  refine .bind (.assert (by simp [htd]) (.bind ?_))
  refine .readReg ht fun ptr c₁ s₁ hq₁ hptr => ?_
  have htp : ptr.getType = ptrTy := hptr.ptr rfl
  -- the descriptor
  refine .bind (.storeWord (ht.quiet hq₁) (.ofInt (hd.later hq₁.toLater) htd) hptr.is htp
    fun c₂ s₂ hl₂ ht₂ => .bind ?_)
  have hl := hq₁.toLater.trans hl₂
  have hp₂ := hptr.is.later hl₂
  have hfields := does_initFields htp (i := 1) (by omega) ht₂ hp₂
    (hus.imp fun _ _ h => h.later hl)
  refine hfields.mono fun _ c₃ s₃ h₃ => ?_
  obtain ⟨hl₃, ht₃⟩ := h₃
  have hp₃ := hp₂.later hl₃
  -- the object
  refine .bind (.createGEPConst hp₃ htp (by decide) (by decide) fun adr c₄ s₄ hq₄ hadr hta => ?_)
  refine .bind (.asPtr hadr (.inl hta) fun obj c₅ s₅ hq₅ hobj hto => ?_)
  have hq := hq₄.trans hq₅
  -- the next free word
  have hbound : us.length + 1 < 2147483648 := by omega
  refine .bind (.createGEPConst (hp₃.later hq.toLater) htp (by omega) (by omega)
    fun top c₆ s₆ hq₆ htop htt => .bind ?_)
  refine .writeReg (ht₃.quiet (hq.trans hq₆)) (.ofPtr htop htt)
    fun c₇ s₇ hl₇ ht₇ => .pure ?_
  refine ⟨((hl.trans hl₃).trans (hq.trans hq₆).toLater).trans hl₇, ?_,
    .ofPtr (hobj.later (hq₆.toLater.trans hl₇)) hto⟩
  have htop' : BitVec.ofInt 64 (((us.length : Int) + 1) * 8)
      = BitVec.ofNat 64 (8 * (vs.length + 1)) := by
    rw [← hus.length_eq, ← ofInt_words]
    rfl
  rw [htop'] at ht₇
  exact ht₇

/-- Storage without a content. Only the allocation pointer moves, after it was adjusted to the
alignment, and the descriptor, if there is one, is stored in front. -/
theorem does_allocRaw {desc : Option Asdl.Integer} {align len : Int} {w : Word} {σ' : MState}
    (ht : Tracks act M ρ σ c s) (h : allocRaw M σ desc align len = some (w, σ')) :
    ((Alloc.RAW_ALLOC desc align len : Alloc .cpp).codegen us).Does act c s fun u c' s' =>
      Later c c' s s' ∧ Tracks act M ρ σ' c' s' ∧ Holds act c' s' u (.ml w) := by
  obtain ⟨⟨hlo, hhi⟩, h⟩ := Option.ite_none_right_eq_some.mp h
  -- the object and the next free byte, after the header
  have hobj : ∀ {c₁ : Context} {s₁ : State} {ptr : Val} {p : Word} {σ₁ : MState}, Later c c₁ s s₁ →
      Tracks act M ρ σ₁ c₁ s₁ → Is act c₁ s₁ ptr p → ptr.getType = ptrTy →
      w = p + 8 → σ' = M.setReg σ₁ .ALLOC_PTR (p + BitVec.ofInt 64 (len + 8)) →
      ((do
        let obj ← createBitCast (← createGEPConst ptr 1) ptrTy
        let bumped ← createGEPTyConst i8Ty ptr (len + wordSzB)
        setMLReg .ALLOC_PTR (← createBitCast bumped ptrTy)
        Pure.pure obj : Gen Val).Does act c₁ s₁ fun u c' s' =>
          Later c c' s s' ∧ Tracks act M ρ σ' c' s' ∧ Holds act c' s' u (.ml w)) := by
    intro c₁ s₁ ptr p σ₁ hl₁ ht₁ hp hty hw hσ
    refine .bind (.createGEPConst hp hty (by decide) (by decide) fun adr c₂ s₂ hq₂ hadr hta => ?_)
    refine .bind (.createCast hadr (fun _ => rfl) (fun hne => absurd hta hne)
      fun obj c₃ s₃ hq₃ hobj hto => ?_)
    have hq := hq₂.trans hq₃
    refine .bind (.createGEPTyConst (hp.later hq.toLater) hty hlo hhi
      fun top c₄ s₄ hq₄ htop htt => ?_)
    refine .bind (.createCast htop (fun _ => rfl) (fun hne => absurd htt hne)
      fun top' c₅ s₅ hq₅ htop' htt' => .bind ?_)
    have hq' := hq₄.trans hq₅
    refine .writeReg (ht₁.quiet (hq.trans hq')) (.ofPtr htop' htt')
      fun c₆ s₆ hl₆ ht₆ => .pure ?_
    refine ⟨hl₁.trans ((hq.trans hq').toLater.trans hl₆), ?_, ?_⟩
    · have hone : (len + wordSzB) * i8Ty.bytes = len + 8 := Int.mul_one _
      rw [hone] at ht₆
      rw [hσ]
      exact ht₆
    · rw [hw]
      exact .ofPtr (hobj.later (hq'.toLater.trans hl₆)) hto
  refine .bind (.readReg ht fun ptr c₁ s₁ hq₁ hptr => .bind ?_)
  have htp : ptr.getType = ptrTy := hptr.ptr rfl
  cases desc with
  | none =>
      obtain ⟨rfl, h⟩ := Option.ite_none_right_eq_some.mp h
      cases h
      exact .bind (.assert rfl (.pure (hobj hq₁.toLater (ht.quiet hq₁) hptr.is htp rfl rfl)))
  | some desc =>
      obtain ⟨d, hd, h⟩ := Option.bind_eq_some_iff.mp h
      cases h
      refine .bind (does_alignAllocPtr hptr.is htp rfl fun ptr' c₂ s₂ hq₂ hptr' htp' => ?_)
      have hq := hq₁.trans hq₂
      refine .bind (.deref hd (.bind ?_))
      refine .storeML (w := .int d) (a := .ml _) (ht.quiet hq)
        (.ofInt (.uConst act c₂ s₂ d) rfl) (.ofPtr hptr' htp')
        fun c₃ s₃ hl₃ ht₃ => .pure ?_
      exact hobj (hq.toLater.trans hl₃) ht₃ (hptr'.later hl₃) htp' rfl rfl

/-- The code of an allocation makes the object of the machine, one operation after the other. -/
theorem Alloc.does_eval {oper : Alloc .cpp} {w : Word} {σ' : MState} (ht : Tracks act M ρ σ c s)
    (hus : List.Forall₂ (Holds act c s) us vs) (h : oper.eval M σ vs = some (w, σ')) :
    (oper.codegen us).Does act c s fun u c' s' => Later c c' s s' ∧
      Tracks act M ρ σ' c' s' ∧ Holds act c' s' u (.ml w) := by
  cases oper with
  | SPECIAL =>
      obtain _ | ⟨hd, _ | ⟨hv, _ | ⟨_, _⟩⟩⟩ := hus
      · cases h
      · cases h
      · refine .bind (.assert rfl (.bind (.argAt rfl (.bind ?_))))
        refine .asInt hd.is hd.like fun desc c₁ s₁ hq₁ hdesc htd => .bind (.argAt rfl ?_)
        refine (does_allocRecord hdesc htd (ht.quiet hq₁)
          (.cons (hv.later hq₁.toLater) .nil) h).mono fun u c' s' hu => ?_
        exact ⟨hq₁.toLater.trans hu.1, hu.2⟩
      · cases h
  | RECORD desc isMut =>
      obtain ⟨d, hd, h⟩ := Option.bind_eq_some_iff.mp h
      exact .bind (.deref hd (does_allocRecord (.uConst act c s d) rfl ht hus h))
  | RAW_RECORD desc align fields => cases h
  | RAW_ALLOC desc align len => exact does_allocRaw ht h

/-! ### Updates -/

/-- An address is added to the store list: a new cell of two words with the address and the old
list. -/
theorem does_recordStore {adr : Val} {a : MLVal} (ht : Tracks act M ρ σ c s)
    (ha : Holds act c s adr a) :
    (recordStore adr).Does act c s fun _ c' s' => Later c c' s s' ∧
      Tracks act M ρ (noteStore M σ a.word) c' s' := by
  refine .bind (.readReg ht fun ptr c₁ s₁ hq₁ hptr => ?_)
  have htp : ptr.getType = ptrTy := hptr.ptr rfl
  refine .bind (.readReg (ht.quiet hq₁) fun store c₂ s₂ hq₂ hstore => ?_)
  have hp₂ := hptr.is.later hq₂.toLater
  refine .bind (.createGEPConst hp₂ htp (by decide) (by decide) fun a₀ c₃ s₃ hq₃ ha₀ hta₀ => ?_)
  have hq := hq₁.trans (hq₂.trans hq₃)
  -- the two words of the list cell
  refine .bind (.storeML (a := .ml _) (ht.quiet hq) (ha.later hq.toLater) (.ofPtr ha₀ hta₀)
    fun c₄ s₄ hl₄ ht₄ => ?_)
  have hl := hq₃.toLater.trans hl₄
  refine .bind (.createGEPConst (hp₂.later hl) htp (by decide) (by decide)
    fun a₁ c₅ s₅ hq₅ ha₁ hta₁ => ?_)
  refine .bind (.storeML (a := .ml _) (ht₄.quiet hq₅) (hstore.later (hl.trans hq₅.toLater))
    (.ofPtr ha₁ hta₁) fun c₆ s₆ hl₆ ht₆ => ?_)
  have hl' := hl.trans (hq₅.toLater.trans hl₆)
  -- the two registers
  refine .bind (.writeReg ht₆ ((Holds.ofPtr hp₂ htp).later hl')
    fun c₇ s₇ hl₇ ht₇ => ?_)
  refine .bind (.createGEPConst (hp₂.later (hl'.trans hl₇)) htp (by decide) (by decide)
    fun a₂ c₈ s₈ hq₈ ha₂ hta₂ => ?_)
  refine .writeReg (ht₇.quiet hq₈) (.ofPtr ha₂ hta₂) fun c' s' hl₉ ht₉ => ?_
  refine ⟨(hq₁.trans hq₂).toLater.trans
    (hl'.trans (hl₇.trans (hq₈.toLater.trans hl₉))), ?_⟩
  have hzero : M.getReg σ .ALLOC_PTR + BitVec.ofInt 64 (0 * 8) = M.getReg σ .ALLOC_PTR :=
    BitVec.add_zero _
  rw [hzero] at ht₉
  exact ht₉

/-- A register gets an ML value. An integer is not one, and the machine has no meaning for it. -/
theorem does_setReg {r : CMRegId} {u : Val} {v : MLVal} {σ' : MState} (ht : Tracks act M ρ σ c s)
    (hv : Holds act c s u v) (h : (if v.isInt then none else some (M.setReg σ r v.word)) = some σ') :
    (argAt [u] 0 >>= fun v => setMLReg r v).Does act c s fun _ c' s' =>
      Later c c' s s' ∧ Tracks act M ρ σ' c' s' := by
  obtain ⟨hint, ⟨⟩⟩ := Option.ite_none_left_eq_some.mp h
  have hptr := hv.ptr (by simpa using hint)
  exact .bind (.argAt rfl (.writeReg ht (.ofPtr hv.is hptr) fun c' s' hl ht' => ⟨hl, ht'⟩))

/-- The code of an update makes the stores of the machine, and the cell of the store list first
where the update is boxed. -/
theorem Setter.does_eval {oper : Setter .cpp} {σ' : MState} (ht : Tracks act M ρ σ c s)
    (hus : List.Forall₂ (Holds act c s) us vs) (h : oper.eval M σ vs = some σ') :
    (oper.codegen us).Does act c s fun _ c' s' => Later c c' s s' ∧ Tracks act M ρ σ' c' s' := by
  cases oper with
  | UNBOXED_UPDATE =>
      obtain _ | ⟨ha, _ | ⟨hi, _ | ⟨hv, _ | ⟨_, _⟩⟩⟩⟩ := hus <;> try cases h
      obtain ⟨hint, ⟨⟩⟩ := Option.ite_none_right_eq_some.mp h
      refine .bind (.argAt rfl (.bind (.argAt rfl (.bind ?_))))
      refine .gepElem rfl ha hi hint fun adr c₁ s₁ hq₁ hadr hta => .bind (.argAt rfl ?_)
      exact .storeML (a := .ml _) (ht.quiet hq₁) (hv.later hq₁.toLater) (.ofPtr hadr hta)
        fun c' s' hl ht' => ⟨hq₁.toLater.trans hl, ht'⟩
  | UPDATE =>
      obtain _ | ⟨ha, _ | ⟨hi, _ | ⟨hv, _ | ⟨_, _⟩⟩⟩⟩ := hus <;> try cases h
      obtain ⟨hint, ⟨⟩⟩ := Option.ite_none_right_eq_some.mp h
      refine .bind (.argAt rfl (.bind (.argAt rfl (.bind ?_))))
      refine .gepElem rfl ha hi hint fun adr c₁ s₁ hq₁ hadr hta => .bind ?_
      have hnote := does_recordStore (ht.quiet hq₁) (.ofPtr hadr hta)
      refine hnote.mono fun _ c₂ s₂ h₂ => .bind (.argAt rfl ?_)
      have hl := hq₁.toLater.trans h₂.1
      exact .storeML (a := .ml _) h₂.2 (hv.later hl) ((Holds.ofPtr hadr hta).later h₂.1)
        fun c' s' hl' ht' => ⟨hl.trans hl', ht'⟩
  | UNBOXED_ASSIGN =>
      obtain _ | ⟨ha, _ | ⟨hv, _ | ⟨_, _⟩⟩⟩ := hus <;> cases h
      refine .bind (.argAt rfl (.bind (.asInt hv.is hv.like fun v' c₁ s₁ hq₁ hv' htv => ?_)))
      refine .bind (.argAt rfl (.bind ?_))
      refine .asPtr (ha.is.later hq₁.toLater) ha.ptrOrInt fun adr c₂ s₂ hq₂ hadr hta => ?_
      have hq := hq₁.trans hq₂
      exact .storeWord (w := .int _) (ht.quiet hq) (.ofInt (hv'.later hq₂.toLater) htv) hadr hta
        fun c' s' hl ht' => ⟨hq.toLater.trans hl, ht'⟩
  | ASSIGN =>
      obtain _ | ⟨ha, _ | ⟨hv, _ | ⟨_, _⟩⟩⟩ := hus <;> cases h
      refine .bind (.argAt rfl (.bind ((does_recordStore ht ha).mono fun _ c₁ s₁ h₁ => ?_)))
      refine .bind (.argAt rfl ?_)
      exact .storeML h₁.2 (hv.later h₁.1) (ha.later h₁.1)
        fun c' s' hl ht' => ⟨h₁.1.trans hl, ht'⟩
  | RAW_UPDATE kind sz =>
      obtain _ | ⟨ha, _ | ⟨hi, _ | ⟨hv, _ | ⟨_, _⟩⟩⟩⟩ := hus <;> try cases h
      obtain ⟨⟨hf, hint⟩, ⟨⟩⟩ := Option.ite_none_right_eq_some.mp h
      obtain ⟨rfl, rfl⟩ : kind = .con .INT ∧ sz = 64 := by simpa [isWordField] using hf
      refine .bind (.argAt rfl (.bind (.argAt rfl (.bind ?_))))
      refine .gepElem rfl ha hi hint fun adr c₁ s₁ hq₁ hadr hta => .bind (.argAt rfl ?_)
      have hv₁ := hv.later hq₁.toLater
      split
      · exact .bind (.assert rfl (.storeML (a := .ml _) (ht.quiet hq₁) hv₁ (.ofPtr hadr hta)
          fun c' s' hl ht' => ⟨hq₁.toLater.trans hl, ht'⟩))
      · exact .storeWord (ht.quiet hq₁) hv₁ hadr hta
          fun c' s' hl ht' => ⟨hq₁.toLater.trans hl, ht'⟩
  | RAW_STORE kind sz =>
      obtain _ | ⟨ha, _ | ⟨hi, _ | ⟨hv, _ | ⟨_, _⟩⟩⟩⟩ := hus <;> try cases h
      obtain ⟨⟨hf, hint⟩, ⟨⟩⟩ := Option.ite_none_right_eq_some.mp h
      refine .bind (.argAt rfl (.bind (.argAt rfl (.bind ?_))))
      refine .gepByte ha hi hint fun adr c₁ s₁ hq₁ hadr hta => .bind (.argAt rfl ?_)
      exact .storeWord (ht.quiet hq₁) (hv.later hq₁.toLater) hadr hta
        fun c' s' hl ht' => ⟨hq₁.toLater.trans hl, ht'⟩
  | SET_HDLR =>
      obtain _ | ⟨hv, _ | ⟨_, _⟩⟩ := hus <;> try cases h
      exact does_setReg ht hv h
  | SET_VAR =>
      obtain _ | ⟨hv, _ | ⟨_, _⟩⟩ := hus <;> try cases h
      exact does_setReg ht hv h

/-! ### Tests -/

/-- A comparison of two words as integers of native size, which is how pointers are compared as
well. -/
theorem does_cmp {op : Cmpop} {signed : Bool} {a b : Val} {x y : MLVal}
    (ha : Holds act c s a x) (hb : Holds act c s b y) :
    ((Branch.CMP (.con op) signed 64 : Branch .cpp).codegen [a, b]).Does act c s
      fun cond c' s' => Quiet c c' s s' ∧ Is act c' s' cond (BitVec.ofNat 64
        (op.holds (intOf signed 64 x.word) (intOf signed 64 y.word)).toNat) := by
  have hta : ∀ {u : Val} {v : MLVal}, Holds act c s u v →
      u.getType = iType 64 ∨ u.getType = ptrTy := fun hu => hu.cases
  obtain ⟨pred, hpred, heval⟩ := op.exists_pred signed
  refine .bind (.deref hpred (.bind (.argAt rfl (.bind ?_))))
  refine .asIntSz ha.is (hta ha) fun a' x' c₁ s₁ hq₁ ha' hta' hx => .bind (.argAt rfl (.bind ?_))
  refine .asIntSz (hb.is.later hq₁.toLater) (hta hb) fun b' y' c₂ s₂ hq₂ hb' htb' hy => ?_
  refine .createICmp (ha'.later hq₂.toLater) (.inl hta') hb' (.inl htb')
    fun cond c' s' hq hcond _ => ⟨hq₁.trans (hq₂.trans hq), ?_⟩
  rw [heval] at hcond
  have hsame : ∀ {w w' : Word}, w'.setWidth (iBits 64) = w.setWidth (iBits 64) →
      intOf signed (iBits 64) w' = intOf signed 64 w := by
    intro w w' hw
    rw [intOf, hw]
    rfl
  rwa [hsame hx, hsame hy] at hcond

/-- A comparison of an address with the limit pointer, as unsigned integers. -/
theorem does_limit {a : Val} {w : Word} (ht : Tracks act M ρ σ c s) (ha : Is act c s a w)
    (hta : a.getType = intTy) :
    (mlReg .LIMIT_PTR >>= fun l => asInt l >>= fun l => createICmp .ugt a l).Does act c s
      fun cond c' s' => Quiet c c' s s' ∧
        Is act c' s' cond (BitVec.ofNat 64 ((M.getReg σ .LIMIT_PTR).ult w).toNat) := by
  refine .bind (.readReg ht fun l c₁ s₁ hq₁ hl => .bind ?_)
  refine .asInt hl.is hl.like fun l' c₂ s₂ hq₂ hl' htl' => ?_
  have hq := hq₁.trans hq₂
  refine .createICmp (ha.later hq.toLater) (.inl hta) hl' (.inl htl')
    fun cond c' s' hq' hcond _ => ⟨hq.trans hq', ?_⟩
  simpa [ICmpPred.eval, ICmpPred.evalBits] using hcond

/-- The code of a test computes its bit, as an `i1`, and stores nothing. -/
theorem Branch.does_eval {oper : Branch .cpp} {b : Bool} (ht : Tracks act M ρ σ c s)
    (hus : List.Forall₂ (Holds act c s) us vs) (h : oper.eval M σ vs = some b) :
    (oper.codegen us).Does act c s fun cond c' s' =>
      Quiet c c' s s' ∧ Is act c' s' cond (BitVec.ofNat 64 b.toNat) := by
  cases oper with
  | CMP op signed sz =>
      cases op with
      | undeclared tag => cases h
      | con op =>
          obtain _ | ⟨ha, _ | ⟨hb, _ | ⟨_, _⟩⟩⟩ := hus <;> try cases h
          obtain ⟨rfl, hb'⟩ := Option.ite_none_right_eq_some.mp h
          cases hb'
          exact does_cmp ha hb
  | PEQL =>
      obtain _ | ⟨ha, _ | ⟨hb, _ | ⟨_, _⟩⟩⟩ := hus <;> cases h
      refine .bind (.argAt rfl (.bind (.argAt rfl ?_)))
      refine .createICmp ha.is ha.like hb.is hb.like fun cond c' s' hq hcond _ => ⟨hq, ?_⟩
      simpa [ICmpPred.eval, ICmpPred.evalBits] using hcond
  | PNEQ =>
      obtain _ | ⟨ha, _ | ⟨hb, _ | ⟨_, _⟩⟩⟩ := hus <;> cases h
      refine .bind (.argAt rfl (.bind (.argAt rfl ?_)))
      refine .createICmp ha.is ha.like hb.is hb.like fun cond c' s' hq hcond _ => ⟨hq, ?_⟩
      simpa [ICmpPred.eval, ICmpPred.evalBits] using hcond
  | LIMIT amt =>
      cases h
      refine .bind (.ask ?_)
      rw [ht.linked.target]
      by_cases hgt : amt > M.target.allocSlopSzb
      · simp only [if_pos hgt]
        refine .bind (.readReg ht fun p c₁ s₁ hq₁ hp => ?_)
        have hadd : ∀ x y : Word, BinOp.eval 64 .add x y = some (x + y) := fun x y => by
          simp [BinOp.eval, BinOp.evalBits]
        refine .bind (.createBin hp.is hp.like (.uConst act c₁ s₁ _) (.inl rfl) (hadd _ _)
          fun a c₂ s₂ hq₂ ha hta => ?_)
        have hq := hq₁.trans hq₂
        exact (does_limit (ht.quiet hq) ha hta).mono fun cond c' s' h => ⟨hq.trans h.1, h.2⟩
      · simp only [if_neg hgt]
        refine .bind (.readReg ht fun p c₁ s₁ hq₁ hp => .bind ?_)
        refine .asInt hp.is hp.like fun a c₂ s₂ hq₂ ha hta => ?_
        have hq := hq₁.trans hq₂
        exact (does_limit (ht.quiet hq) ha hta).mono fun cond c' s' h => ⟨hq.trans h.1, h.2⟩
  | FCMP op sz => cases h
  | FSGN sz => cases h

end SmlnjCfg.CfgPrim
