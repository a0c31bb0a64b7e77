import SmlnjCfg.Cfg.Unpickle
import SmlnjCfg.Codegen.RawRecord

/-!
# `SmlnjCfg.Codegen.RawAlloc`: aligned raw objects

`RAW_ALLOC::codegen` aligns the address of the descriptor by setting bits of the
allocation pointer, so that the object behind the descriptor is aligned. The
theorems:

* `does_rawAlloc`: where one object lies, and what is stored.
* `does_rawAllocs`: any sequence of allocations.
-/

set_option autoImplicit false

namespace SmlnjCfg.CfgPrim

open Codegen Gen IR

/-- The request of a `RAW_ALLOC`: the descriptor, and the alignment and the length
in bytes. -/
structure RawReq where
  /-- The descriptor, if there is one. -/
  desc : Option Asdl.Integer
  /-- The alignment. -/
  align : Int
  /-- The length. -/
  len : Int

/-- The operation of a request. -/
def RawReq.alloc (r : RawReq) : Alloc .cpp := .RAW_ALLOC r.desc r.align r.len

/-- What the code generator relies on: the alignment is a power of two of at least
the word size, and the word size for a spill record, which has no descriptor.
The alignment and the length with its word fit the `int` they are computed in. -/
structure RawReq.WellFormed (r : RawReq) : Prop where
  align : ∃ k : Nat, 3 ≤ k ∧ r.align = 2 ^ k
  align_lt : r.align < 2 ^ 31
  len_nonneg : 0 ≤ r.len
  len_lt : r.len + 8 < 2 ^ 31
  desc : ∀ desc ∈ r.desc, ∃ d, desc.toUInt64 = some d
  spill : r.desc = none → r.align = 8

/-- A `RAW_ALLOC` of a pickle has an alignment and a length that fit the `int` they are computed
in: `read_int` returns no more than `29` bits. So `align_lt` and `len_lt` leave out nothing that
the code generator can be given. -/
theorem RawReq.bounds_of_read {r : RawReq} {is is' : Asdl.Instream}
    (h : Alloc.read.run is = .ok (r.alloc, is')) : r.align < 2 ^ 31 ∧ r.len + 8 < 2 ^ 31 := by
  obtain ⟨tag, is₁, -, h⟩ := Decoder.run_bind_ok.mp h
  split at h
  · cases h
  · obtain ⟨desc, is₂, -, h⟩ := Decoder.run_bind_ok.mp h
    obtain ⟨mutable, is₃, -, h⟩ := Decoder.run_bind_ok.mp h
    cases h
  · obtain ⟨desc, is₂, -, h⟩ := Decoder.run_bind_ok.mp h
    obtain ⟨align, is₃, -, h⟩ := Decoder.run_bind_ok.mp h
    obtain ⟨fields, is₄, -, h⟩ := Decoder.run_bind_ok.mp h
    cases h
  · obtain ⟨desc, is₂, -, h⟩ := Decoder.run_bind_ok.mp h
    obtain ⟨align, is₃, halign, h⟩ := Decoder.run_bind_ok.mp h
    obtain ⟨len, is₄, hlen, h⟩ := Decoder.run_bind_ok.mp h
    have halign := (Asdl.readInt_range halign).2
    have hlen := (Asdl.readInt_range hlen).2
    cases h
    exact ⟨by omega, by omega⟩
  · cases h

/-- Where an object is put: at the next multiple of its alignment. -/
def objAt (p : Nat) (r : RawReq) : Nat := (p / r.align.toNat + 1) * r.align.toNat

/-- The allocation pointer after the object. -/
def topAt (p : Nat) (r : RawReq) : Nat := objAt p r + r.len.toNat

/-- The allocation pointer after all objects. -/
def endAt (p : Nat) (rs : List RawReq) : Nat := rs.foldl topAt p

/-- An object at `o` that was allocated from `p`, and the allocation pointer `q`
afterwards: the object is at the least aligned address that leaves room for
its descriptor, and it ends where the free memory starts. -/
structure Allocated (r : RawReq) (p o q : Word) : Prop where
  aligned : (o.toNat : Int) % r.align = 0
  room : p.toNat + 8 ≤ o.toNat
  least : ∀ a : Nat, p.toNat + 8 ≤ a → (a : Int) % r.align = 0 → o.toNat ≤ a
  top : (q.toNat : Int) = o.toNat + r.len

/-- The alignment is a multiple of the word size, and so is the end of an object
of whole words. -/
theorem Allocated.top_mod {r : RawReq} {p o q : Word} (h : Allocated r p o q)
    (hr : r.WellFormed) (hlen : r.len % 8 = 0) : q.toNat % 8 = 0 := by
  obtain ⟨k, hk, hal⟩ := hr.align
  have h8 : (8 : Int) ∣ r.align := by
    rw [hal]
    exact pow_dvd_pow 2 hk
  have ho : (8 : Int) ∣ o.toNat := h8.trans (Int.dvd_of_emod_eq_zero h.aligned)
  have htop := h.top
  omega

/-- The store of the descriptor, in the word before the object. -/
def headerWrites (r : RawReq) (o : Word) : List Write :=
  match r.desc with
  | some desc => [⟨o.toNat - 8, 8, (desc.toUInt64.getD 0).toNat⟩]
  | none => []

variable {act : Activation Sym} {c : Context} {s : State}

/-! ### The address -/

theorem RawReq.WellFormed.exists_log {r : RawReq} (h : r.WellFormed) :
    ∃ k, 3 ≤ k ∧ k ≤ 30 ∧ r.align = 2 ^ k ∧ r.align.toNat = 2 ^ k := by
  obtain ⟨k, hk, hal⟩ := h.align
  have hlt := h.align_lt
  have hle : k ≤ 30 := by
    by_contra hgt
    have hpow : (2 : Int) ^ 31 ≤ 2 ^ k := by
      have := Nat.pow_le_pow_right (n := 2) (by decide) (show 31 ≤ k by omega)
      exact_mod_cast this
    omega
  refine ⟨k, hk, hle, hal, ?_⟩
  rw [hal]
  exact_mod_cast Int.toNat_natCast (2 ^ k)

/-- The objects do not wrap around, so the words are the numbers. -/
theorem allocated_of_lt {r : RawReq} (h : r.WellFormed) {p : Word} (hp : p.toNat % 8 = 0)
    (hwrap : topAt p.toNat r < 2 ^ 64) :
    Allocated r p (BitVec.ofNat 64 (objAt p.toNat r)) (BitVec.ofNat 64 (topAt p.toNat r)) := by
  obtain ⟨k, hk, -, hal, hnat⟩ := h.exists_log
  have hobj : (BitVec.ofNat 64 (objAt p.toNat r)).toNat = objAt p.toNat r := by
    have hle : objAt p.toNat r ≤ topAt p.toNat r := Nat.le_add_right _ _
    rw [BitVec.toNat_ofNat, Nat.mod_eq_of_lt (by omega)]
  have htop : (BitVec.ofNat 64 (topAt p.toNat r)).toNat = topAt p.toNat r := by
    rw [BitVec.toNat_ofNat, Nat.mod_eq_of_lt hwrap]
  have h8 : 8 ∣ 2 ^ k := Nat.pow_dvd_pow 2 hk
  obtain ⟨hroom, hleast⟩ := next_multiple (Nat.two_pow_pos k) h8 (Nat.dvd_of_mod_eq_zero hp)
  have hcast : r.align = ((2 ^ k : Nat) : Int) := by rw [hal]; push_cast; rfl
  rw [← hnat] at hroom hleast
  refine ⟨?_, ?_, ?_, ?_⟩
  · rw [hobj, hcast, objAt, hnat, ← Int.natCast_emod, Nat.mul_mod_left, Nat.cast_zero]
  · rw [hobj]
    exact hroom
  · intro a ha hmod
    rw [hobj]
    refine hleast a (by omega) ?_
    rw [hcast, ← Int.natCast_emod, Int.natCast_eq_zero] at hmod
    rw [hnat]
    exact Nat.dvd_of_mod_eq_zero hmod
  · rw [htop, hobj, topAt, Nat.cast_add, Int.toNat_of_nonneg h.len_nonneg]

/-- The mask leads to the descriptor's place. -/
theorem or_align {r : RawReq} {k : Nat} (hk : 3 ≤ k) (hk' : k ≤ 30) (hal : r.align = 2 ^ k)
    (hnat : r.align.toNat = 2 ^ k) {p : Word} (hp : p.toNat % 8 = 0) :
    (p ||| BitVec.ofInt 64 (r.align - 8)) + 8 = BitVec.ofNat 64 (objAt p.toNat r) := by
  have hpow : 2 ^ 3 ≤ 2 ^ k := Nat.pow_le_pow_right (by decide) hk
  have hpow' : 2 ^ k ≤ 2 ^ 30 := Nat.pow_le_pow_right (by decide) hk'
  have hmask : (BitVec.ofInt 64 (r.align - 8)).toNat = 2 ^ k - 2 ^ 3 := by
    have hcast : r.align - 8 = ((2 ^ k - 2 ^ 3 : Nat) : Int) := by
      rw [Nat.cast_sub hpow, hal]
      push_cast
      rfl
    rw [hcast, BitVec.ofInt_natCast, BitVec.toNat_ofNat, Nat.mod_eq_of_lt (by omega)]
  have hor := or_mask hk hp
  have hobj : objAt p.toNat r = p.toNat / 2 ^ k * 2 ^ k + 2 ^ k := by
    rw [objAt, hnat, Nat.add_mul, Nat.one_mul]
  apply BitVec.eq_of_toNat_eq
  rw [BitVec.toNat_add, BitVec.toNat_or, hmask, hor, BitVec.toNat_ofNat, hobj]
  have h8 : (8 : Word).toNat = 8 := rfl
  rw [h8]
  omega

/-! ### The code -/

/-- The allocation point of an aligned object. -/
theorem does_alignAllocPtr {align : Int} {ptr : Val} {p a : Word} (hptr : Is act c s ptr p)
    (hty : ptr.getType = ptrTy)
    (ha : a = if align > wordSzB then p ||| BitVec.ofInt 64 (align - 8) else p)
    {Q : Val → Context → State → Prop}
    (h : ∀ v c' s', Quiet c c' s s' → Is act c' s' v a → v.getType = ptrTy → Q v c' s') :
    (alignAllocPtr align ptr).Does act c s Q := by
  unfold alignAllocPtr
  by_cases hgt : align > wordSzB
  · rw [if_pos hgt] at ha ⊢
    have hcast : CastOp.eval act.host .ptrToInt ptr.getType intTy p = some p := by
      simp [CastOp.eval, Ty.bits, intTy]
    refine .bind (.createCast hptr (fun _ => rfl) (fun _ => ⟨?_, hcast⟩)
      fun i c₁ s₁ hq₁ hi hti => ?_)
    · simp [CastOp.wellTyped, hty, Ty.isPointerTy, Ty.isIntegerTy]
    have hor : BinOp.eval 64 .or p (BitVec.ofInt 64 (align - 8)) = some a := by
      rw [BinOp.eval, BinOp.evalBits, ha]
      simp only [BitVec.setWidth_eq, Option.map_some]
    refine .bind (.createBin hi (.inl hti) (.uConst act c₁ s₁ _) (.inl rfl) hor
      fun o c₂ s₂ hq₂ ho hto => ?_)
    refine .createCast ho (fun _ => rfl) (fun _ => ⟨?_, rfl⟩) fun v c' s' hq hv ht =>
      h v c' s' (hq₁.trans (hq₂.trans hq)) hv ht
    simp [CastOp.wellTyped, hto, Ty.isIntegerTy, Ty.isPointerTy]
  · rw [if_neg hgt] at ha ⊢
    exact .pure (h ptr c s (.refl c s) (ha ▸ hptr) hty)

/-- The header of an object: the descriptor is stored, if there is one. -/
theorem does_rawAllocHeader {r : RawReq} (hr : r.WellFormed) {ptr : Val} {p : Word}
    (hp : p.toNat % 8 = 0) (hwrap : topAt p.toNat r < 2 ^ 64) (hptr : Is act c s ptr p)
    (hty : ptr.getType = ptrTy) {Q : Val → Context → State → Prop}
    (h : ∀ v a c' s', Stores c c' s s' (headerWrites r (BitVec.ofNat 64 (objAt p.toNat r))) →
      Is act c' s' v a → v.getType = ptrTy → a + 8 = BitVec.ofNat 64 (objAt p.toNat r) →
      Q v c' s') :
    (rawAllocHeader r.desc r.align ptr).Does act c s Q := by
  obtain ⟨k, hk, hk', hal, hnat⟩ := hr.exists_log
  have hor := or_align hk hk' hal hnat hp
  unfold rawAllocHeader headerWrites at *
  cases hdesc : r.desc with
  | none =>
      -- The alignment is the word size, so the mask is empty.
      have h8 := hr.spill hdesc
      rw [h8] at hor
      have hzero : p ||| BitVec.ofInt 64 (8 - 8) = p := BitVec.or_zero
      rw [hzero] at hor
      rw [hdesc] at h
      refine .bind (.assert (by rw [h8]; rfl) ?_)
      exact .pure (h ptr p c s (Quiet.refl c s).stores hptr hty hor)
  | some desc =>
      obtain ⟨d, hd⟩ := hr.desc desc hdesc
      rw [hdesc] at h
      have ha : (if r.align > wordSzB then p ||| BitVec.ofInt 64 (r.align - 8) else p)
          = p ||| BitVec.ofInt 64 (r.align - 8) := by
        split
        next => rfl
        next hle =>
          have h8 : r.align = 8 := by
            have hge : (2 : Int) ^ 3 ≤ 2 ^ k := by
              exact_mod_cast Nat.pow_le_pow_right (n := 2) (by decide) hk
            have hw : wordSzB = 8 := rfl
            omega
          rw [h8]
          exact BitVec.or_zero.symm
      refine .bind (does_alignAllocPtr hptr hty ha.symm fun v c₁ s₁ hq₁ hv htv => ?_)
      refine .bind (.deref hd ?_)
      refine .bind (.createStoreML (.uConst act c₁ s₁ d) (.inr rfl) hv htv fun c₂ s₂ hs₂ => ?_)
      refine .pure (h v _ c₂ s₂ ?_ (hv.later hs₂.toLater) htv hor)
      have hadr : (BitVec.ofNat 64 (objAt p.toNat r)).toNat - 8
          = (p ||| BitVec.ofInt 64 (r.align - 8)).toNat := by
        have hroom := (allocated_of_lt hr hp hwrap).room
        have hor' := congrArg BitVec.toNat hor
        have h8 : (8 : Word).toNat = 8 := rfl
        rw [BitVec.toNat_add, h8] at hor'
        omega
      have hs := hq₁.stores.trans hs₂
      simp only [hd, Option.getD_some, hadr]
      exact hs

/-- The code of a `RAW_ALLOC`: the result is the aligned object, in front of which
the descriptor is stored, and the allocation pointer is moved to its end. -/
theorem does_rawAlloc {r : RawReq} (hr : r.WellFormed) {p : Word}
    (hp : RegIs act c s .ALLOC_PTR p) (haligned : p.toNat % 8 = 0)
    (hwrap : topAt p.toNat r < 2 ^ 64) :
    (r.alloc.codegen []).Does act c s fun obj c' s' =>
      Later c c' s s' ∧
      Is act c' s' obj (BitVec.ofNat 64 (objAt p.toNat r)) ∧
      RegIs act c' s' .ALLOC_PTR (BitVec.ofNat 64 (topAt p.toNat r)) ∧
      regWrites act c' .ALLOC_PTR = regWrites act c .ALLOC_PTR ∧
      s'.trace = s.trace ++ headerWrites r (BitVec.ofNat 64 (objAt p.toNat r))
        ++ regWrites act c .ALLOC_PTR (BitVec.ofNat 64 (topAt p.toNat r)) := by
  refine .bind (.mlReg hp fun ptr c₁ s₁ hq₁ hptr htp => ?_)
  refine .bind (does_rawAllocHeader hr haligned hwrap hptr htp fun v a c₂ s₂ hs₂ hv htv ha => ?_)
  refine .bind (.createGEPConst hv htv (by decide) (by decide) fun adr c₃ s₃ hq₃ hadr hta => ?_)
  rw [show a + BitVec.ofInt 64 (1 * 8) = a + 8 from rfl, ha] at hadr
  refine .bind (.createCast hadr (fun _ => rfl) (fun hne => absurd hta hne)
    fun obj c₄ s₄ hq₄ hobj hto => ?_)
  have hlen := hr.len_lt
  have hpos := hr.len_nonneg
  refine .bind (.createGEPTyConst (hv.later (hq₃.toLater.trans hq₄.toLater)) htv
    (show -2 ^ 31 ≤ r.len + wordSzB from ?_) (show r.len + wordSzB < 2 ^ 31 from ?_)
    fun top c₅ s₅ hq₅ htop htt => ?_)
  · show -2 ^ 31 ≤ r.len + 8
    omega
  · exact hlen
  have hbump : a + BitVec.ofInt 64 ((r.len + wordSzB) * i8Ty.bytes)
      = BitVec.ofNat 64 (topAt p.toNat r) := by
    have hone : ((i8Ty.bytes : Nat) : Int) = 1 := rfl
    have hsum : BitVec.ofInt 64 (r.len + wordSzB) = BitVec.ofInt 64 r.len + 8 := by
      rw [BitVec.ofInt_add]
      rfl
    have hl : BitVec.ofInt 64 r.len = BitVec.ofNat 64 r.len.toNat := by
      rw [← BitVec.ofInt_natCast, Int.toNat_of_nonneg hpos]
    rw [hone, Int.mul_one, hsum, topAt, BitVec.ofNat_add, ← ha, hl, BitVec.add_comm _ 8,
      ← BitVec.add_assoc]
  rw [hbump] at htop
  refine .bind (.createCast htop (fun _ => rfl) (fun hne => absurd htt hne)
    fun new c₆ s₆ hq₆ hnew htn => ?_)
  refine .bind (.setMLReg hnew htn fun c' s' hl₇ hreg hplace _ htrace => ?_)
  have hl₆ := hq₅.toLater.trans hq₆.toLater
  have hs₆ := (hq₁.stores.trans hs₂).trans
    (hq₃.trans (hq₄.trans (hq₅.trans hq₆))).stores
  -- Nothing up to here moves the register, so the stores are those of the first context.
  have hw : regWrites act c₆ .ALLOC_PTR = regWrites act c .ALLOC_PTR := by
    funext w
    rw [hs₆.ctx]
    rfl
  refine .pure ⟨hs₆.toLater.trans hl₇, hobj.later (hl₆.trans hl₇), hreg, hplace.trans hw, ?_⟩
  rw [htrace, hs₆.trace, hw]
  simp

/-! ### Sequences of allocations -/

/-- Allocate one object after the other. -/
def rawAllocs : List RawReq → Gen (List Val)
  | [] => pure []
  | r :: rs => do
      let obj ← r.alloc.codegen []
      let objs ← rawAllocs rs
      pure (obj :: objs)

/-- Objects at `os` that were allocated one after the other from `p`, with the
allocation pointer `e` at the end, and the stores made: the descriptors, and
where the allocation pointer lives in memory its own slot. The context is the one
that the first allocation starts from; it says where the pointer lives. -/
inductive Laid (act : Activation Sym) (c : Context) :
    Word → List RawReq → List Word → Word → List Write → Prop where
  | nil (p : Word) : Laid act c p [] [] p []
  | cons {r : RawReq} {rs : List RawReq} {p o q e : Word} {os : List Word} {ws : List Write}
      (hobj : Allocated r p o q) (hrest : Laid act c q rs os e ws) :
      Laid act c p (r :: rs) (o :: os) e (headerWrites r o ++ regWrites act c .ALLOC_PTR q ++ ws)

namespace Laid

variable {p e : Word} {rs : List RawReq} {os : List Word} {ws : List Write}

/-- Of the context only the place of the allocation pointer counts. -/
theorem of_ctx {c' : Context} (hw : regWrites act c' .ALLOC_PTR = regWrites act c .ALLOC_PTR)
    (h : Laid act c' p rs os e ws) : Laid act c p rs os e ws := by
  induction h with
  | nil p => exact .nil p
  | cons hobj _ ih =>
      rw [hw]
      exact .cons hobj ih

/-- Memory is only handed out upwards. -/
theorem le (h : Laid act c p rs os e ws) (hr : ∀ r ∈ rs, r.WellFormed) : p.toNat ≤ e.toNat := by
  induction h with
  | nil => exact Nat.le_refl _
  | cons hobj _ ih =>
      obtain ⟨hwf, hr⟩ := List.forall_mem_cons.mp hr
      have hpos := hwf.len_nonneg
      have htop := hobj.top
      have hroom := hobj.room
      have := ih hr
      omega

/-- Every object lies with its descriptor between the two allocation pointers. -/
theorem inside (h : Laid act c p rs os e ws) (hr : ∀ r ∈ rs, r.WellFormed) :
    ∀ x ∈ os.zip rs, p.toNat + 8 ≤ x.1.toNat ∧ (x.1.toNat : Int) + x.2.len ≤ e.toNat := by
  induction h with
  | nil => simp
  | @cons r rs p o q e os ws hobj hrest ih =>
      obtain ⟨hwf, hr⟩ := List.forall_mem_cons.mp hr
      have hpos := hwf.len_nonneg
      have htop := hobj.top
      have hroom := hobj.room
      have hle := hrest.le hr
      rw [List.zip_cons_cons, List.forall_mem_cons]
      refine ⟨⟨hroom, ?_⟩, fun x hx => ?_⟩
      · show (o.toNat : Int) + r.len ≤ e.toNat
        omega
      · have := ih hr x hx
        omega

/-- An earlier object ends before the descriptor of a later one. -/
theorem pairwise (h : Laid act c p rs os e ws) (hr : ∀ r ∈ rs, r.WellFormed) :
    (os.zip rs).Pairwise fun x y => (x.1.toNat : Int) + x.2.len ≤ y.1.toNat - 8 := by
  induction h with
  | nil => exact List.Pairwise.nil
  | @cons r rs p o q e os ws hobj hrest ih =>
      obtain ⟨-, hr⟩ := List.forall_mem_cons.mp hr
      have htop := hobj.top
      refine List.pairwise_cons.mpr ⟨fun x hx => ?_, ih hr⟩
      have hin := (hrest.inside hr x hx).1
      show (o.toNat : Int) + r.len ≤ x.1.toNat - 8
      omega

/-- The allocation pointer stays aligned as long as the lengths are multiples of
the word size. -/
theorem aligned (h : Laid act c p rs os e ws) (hr : ∀ r ∈ rs, r.WellFormed)
    (hp : p.toNat % 8 = 0) (hlen : ∀ r ∈ rs, r.len % 8 = 0) : e.toNat % 8 = 0 := by
  induction h with
  | nil => exact hp
  | cons hobj _ ih =>
      obtain ⟨hwf, hr⟩ := List.forall_mem_cons.mp hr
      obtain ⟨hl, hlen⟩ := List.forall_mem_cons.mp hlen
      exact ih hr (hobj.top_mod hwf hl) hlen

end Laid

/-- The end of the objects is no lower than the start. -/
theorem le_endAt {rs : List RawReq} (hr : ∀ r ∈ rs, r.WellFormed) (p : Nat) : p ≤ endAt p rs := by
  induction rs generalizing p with
  | nil => exact Nat.le_refl p
  | cons r rs ih =>
      obtain ⟨hwf, hr⟩ := List.forall_mem_cons.mp hr
      obtain ⟨k, -, -, -, hnat⟩ := hwf.exists_log
      have hlt : p < objAt p r := by
        rw [objAt, hnat, Nat.add_mul, Nat.one_mul]
        have hdiv := Nat.div_add_mod' p (2 ^ k)
        have hmod := Nat.mod_lt p (Nat.two_pow_pos k)
        omega
      exact Nat.le_trans (Nat.le_trans (Nat.le_of_lt hlt) (Nat.le_add_right _ _)) (ih hr _)

/-- The code of a sequence of allocations lays out the objects. -/
theorem laid_rawAllocs {rs : List RawReq} (hr : ∀ r ∈ rs, r.WellFormed)
    (hwords : ∀ r ∈ rs.dropLast, r.len % 8 = 0) {p : Word} (hp : RegIs act c s .ALLOC_PTR p)
    (haligned : rs ≠ [] → p.toNat % 8 = 0) (hwrap : endAt p.toNat rs < 2 ^ 64) :
    (rawAllocs rs).Does act c s fun objs c' s' => ∃ os e ws,
      Laid act c p rs os e ws ∧ List.Forall₂ (Is act c' s') objs os ∧
      RegIs act c' s' .ALLOC_PTR e ∧ s'.trace = s.trace ++ ws ∧ Later c c' s s' := by
  induction rs generalizing c s p with
  | nil =>
      exact .pure ⟨[], p, [], .nil p, .nil, hp, (List.append_nil _).symm, .refl c s⟩
  | cons r rs ih =>
      obtain ⟨hwf, hr⟩ := List.forall_mem_cons.mp hr
      have hpa := haligned (List.cons_ne_nil r rs)
      have htop : topAt p.toNat r < 2 ^ 64 := Nat.lt_of_le_of_lt (le_endAt hr _) hwrap
      have hobj := allocated_of_lt hwf hpa htop
      refine .bind (does_rawAlloc hwf hp hpa htop |>.mono fun obj c₁ s₁ h => ?_)
      obtain ⟨hl₁, hv, hreg, hplace, htrace⟩ := h
      have hq : (BitVec.ofNat 64 (topAt p.toNat r)).toNat = topAt p.toNat r := by
        rw [BitVec.toNat_ofNat, Nat.mod_eq_of_lt htop]
      refine .bind (ih hr (fun x hx => hwords x ?_) hreg (fun hne => ?_) ?_ |>.mono
        fun objs c' s' h => ?_)
      · rw [List.dropLast_cons_of_ne_nil]
        · exact List.mem_cons_of_mem r hx
        · rintro rfl
          exact absurd hx List.not_mem_nil
      · -- Another object follows, so this one consists of whole words.
        refine hobj.top_mod hwf (hwords r ?_)
        rw [List.dropLast_cons_of_ne_nil hne]
        exact List.mem_cons_self
      · rw [hq]
        exact hwrap
      · obtain ⟨os, e, ws, hlaid, hvs, hreg', htrace', hl'⟩ := h
        refine .pure ⟨_, e, _, .cons hobj (hlaid.of_ctx hplace), .cons (hv.later hl') hvs,
          hreg', ?_, hl₁.trans hl'⟩
        rw [htrace', htrace]
        simp

/-- Any sequence of `RAW_ALLOC`s, in which all but the last object consist of whole
words, from an aligned allocation pointer and without wrapping around: every
object is at the least aligned address that leaves room for its descriptor,
which is stored right before it, and nothing else is stored but the allocation
pointer, on the targets that keep it in memory; objects and descriptors are disjoint
and lie between the old allocation pointer and the new one, the end of the last
object; and this is aligned again if the last object consists of whole words. -/
theorem does_rawAllocs {rs : List RawReq} (hr : ∀ r ∈ rs, r.WellFormed)
    (hwords : ∀ r ∈ rs.dropLast, r.len % 8 = 0) {p : Word} (hp : RegIs act c s .ALLOC_PTR p)
    (haligned : p.toNat % 8 = 0) (hwrap : endAt p.toNat rs < 2 ^ 64) :
    (rawAllocs rs).Does act c s fun objs c' s' => ∃ os e ws,
      Laid act c p rs os e ws ∧ List.Forall₂ (Is act c' s') objs os ∧
      RegIs act c' s' .ALLOC_PTR e ∧ s'.trace = s.trace ++ ws ∧
      (os.zip rs).Pairwise (fun x y => (x.1.toNat : Int) + x.2.len ≤ y.1.toNat - 8) ∧
      (∀ x ∈ os.zip rs, p.toNat + 8 ≤ x.1.toNat ∧ (x.1.toNat : Int) + x.2.len ≤ e.toNat) ∧
      ((∀ r ∈ rs, r.len % 8 = 0) → e.toNat % 8 = 0) := by
  refine (laid_rawAllocs hr hwords hp (fun _ => haligned) hwrap).mono fun objs c' s' h => ?_
  obtain ⟨os, e, ws, hlaid, hvs, hreg, htrace, -⟩ := h
  exact ⟨os, e, ws, hlaid, hvs, hreg, htrace, hlaid.pairwise hr, hlaid.inside hr,
    hlaid.aligned hr haligned⟩

/-- Two objects: one of `16` bytes at a multiple of `64`, and a spill record of `5`
bytes behind it. -/
theorem does_rawAllocs_two :
    (rawAllocs [⟨some (Asdl.Integer.ofInt 2), 64, 16⟩, ⟨none, 8, 5⟩]).Does threeDoubles argContext
      ⟨fun _ => [], fun _ => 0, []⟩ fun objs c' s' => ∃ os e ws,
        Laid threeDoubles argContext 0x1000 [⟨some (Asdl.Integer.ofInt 2), 64, 16⟩, ⟨none, 8, 5⟩] os e ws ∧
        List.Forall₂ (Is threeDoubles c' s') objs os := by
  have hwf : ∀ r ∈ [(⟨some (Asdl.Integer.ofInt 2), 64, 16⟩ : RawReq), ⟨none, 8, 5⟩],
      r.WellFormed := by
    intro r hr
    rcases List.mem_cons.mp hr with rfl | hr
    · exact ⟨⟨6, by decide, by decide⟩, by decide, by decide, by decide,
        fun desc hd => ⟨2, by cases hd; decide⟩, nofun⟩
    · rw [List.mem_singleton.mp hr]
      exact ⟨⟨3, by decide, by decide⟩, by decide, by decide, by decide, nofun, fun _ => rfl⟩
  refine (does_rawAllocs hwf (by decide) (regIs_allocPtr _) (by decide) (by decide)).mono ?_
  rintro objs c' s' ⟨os, e, ws, hlaid, hvs, -⟩
  exact ⟨os, e, ws, hlaid, hvs⟩

end SmlnjCfg.CfgPrim
