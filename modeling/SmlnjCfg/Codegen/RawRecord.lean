import SmlnjCfg.Codegen.Exec
import SmlnjCfg.Lib.Layout

/-!
# `SmlnjCfg.Codegen.RawRecord`: the layout of raw records

`RAW_RECORD::codegen` keeps a byte offset, which it aligns for each field.
The theorems:

* `placed_rawOffsets`: the fields are placed one after the other.
* `does_rawRecord`: what the code of a raw record stores and returns.
* `rawRecord_iff`: the allocation pointer is left behind the record only if
  there are no fields, because the last address counts the offset in words.
-/

set_option autoImplicit false

namespace SmlnjCfg.CfgPrim

open Codegen Gen IR

/-! ### Offsets -/

/-- A field as the front end makes them: of a declared kind, and of one of
four sizes. -/
structure RawTy.WellFormed (fld : RawTy .cpp) : Prop where
  kind : ∃ k, fld.kind = .con k
  sz : fld.sz = 8 ∨ fld.sz = 16 ∨ fld.sz = 32 ∨ fld.sz = 64

/-- The size of a field in bytes. -/
def RawTy.szb (fld : RawTy .cpp) : Int := bitsToBytes fld.sz

/-- The offsets of the fields, of which the first comes after `offset`. -/
def rawOffsets : List (RawTy .cpp) → Int → List Int
  | [], _ => []
  | fld :: flds, offset =>
      alignOffset offset fld.szb :: rawOffsets flds (alignOffset offset fld.szb + fld.szb)

/-- The offset after the last field. -/
def rawEnd : List (RawTy .cpp) → Int → Int
  | [], offset => offset
  | fld :: flds, offset => rawEnd flds (alignOffset offset fld.szb + fld.szb)

theorem RawTy.WellFormed.szb {fld : RawTy .cpp} (h : fld.WellFormed) :
    ∃ k : Nat, k ≤ 3 ∧ fld.szb = 2 ^ k := by
  unfold RawTy.szb bitsToBytes
  rcases h.sz with h | h | h | h
  · exact ⟨0, by decide, by rw [h]; decide⟩
  · exact ⟨1, by decide, by rw [h]; decide⟩
  · exact ⟨2, by decide, by rw [h]; decide⟩
  · exact ⟨3, by decide, by rw [h]; decide⟩

/-- The mask aligns an offset to the next multiple of a power of two. -/
theorem alignOffset_spec {offset : Int} (h0 : 0 ≤ offset) (k : Nat) :
    alignOffset offset (2 ^ k) % 2 ^ k = 0 ∧ offset ≤ alignOffset offset (2 ^ k) ∧
      alignOffset offset (2 ^ k) < offset + 2 ^ k := by
  obtain ⟨m, rfl⟩ := Int.eq_ofNat_of_zero_le h0
  have hpos : 0 < 2 ^ k := Nat.two_pow_pos k
  have hpow : ((2 ^ k : Nat) : Int) = 2 ^ k := Nat.cast_pow 2 k
  unfold alignOffset
  split
  next hne =>
    have hsum : (m : Int) + (2 ^ k - 1) = ((m + (2 ^ k - 1) : Nat) : Int) := by
      rw [Nat.cast_add, Nat.cast_sub hpos, hpow]
      rfl
    rw [hsum, land_not_mask, ← hpow]
    have hdiv := Nat.div_add_mod (m + (2 ^ k - 1)) (2 ^ k)
    have hmod := Nat.mod_lt (m + (2 ^ k - 1)) hpos
    have halign : (m + (2 ^ k - 1)) / 2 ^ k * 2 ^ k % 2 ^ k = 0 := Nat.mul_mod_left _ _
    rw [Nat.mul_comm] at hdiv
    generalize (m + (2 ^ k - 1)) / 2 ^ k * 2 ^ k = r at hdiv halign
    generalize 2 ^ k = p at hpos hdiv hmod halign
    omega
  next heq =>
    rw [land_mask] at heq
    have hm : m % 2 ^ k = 0 := Int.natCast_eq_zero.mp (not_not.mp heq)
    rw [← hpow]
    generalize 2 ^ k = p at hpos hm
    omega

theorem placed_rawOffsets {fields : List (RawTy .cpp)} (hf : ∀ fld ∈ fields, fld.WellFormed)
    {offset : Int} (h0 : 0 ≤ offset) :
    Placed offset (fields.map RawTy.szb) (rawOffsets fields offset) (rawEnd fields offset) := by
  induction fields generalizing offset with
  | nil => exact .nil offset
  | cons fld fields ih =>
      obtain ⟨hfld, hf⟩ := List.forall_mem_cons.mp hf
      obtain ⟨k, -, hk⟩ := hfld.szb
      obtain ⟨halign, hle, hpad⟩ := alignOffset_spec h0 k
      have hpos : (0 : Int) < 2 ^ k := by positivity
      rw [List.map_cons, rawOffsets, rawEnd, hk]
      exact .cons halign hle hpad (ih hf (by omega))

theorem szb_pos {fields : List (RawTy .cpp)} (hf : ∀ fld ∈ fields, fld.WellFormed) :
    ∀ sz ∈ fields.map RawTy.szb, 0 < sz := by
  intro sz hsz
  obtain ⟨fld, hfld, rfl⟩ := List.mem_map.mp hsz
  obtain ⟨k, -, hk⟩ := (hf fld hfld).szb
  rw [hk]
  positivity

/-- The end is rounded up to the next word. -/
theorem roundToWord_spec {offset : Int} (h0 : 0 ≤ offset) :
    roundToWord offset % 8 = 0 ∧ offset ≤ roundToWord offset ∧
      roundToWord offset < offset + 8 := by
  obtain ⟨m, rfl⟩ := Int.eq_ofNat_of_zero_le h0
  have hr : roundToWord m = ((m + 7) / 8 * 8 : Nat) := land_not_mask (m + 7) 3
  rw [hr]
  omega

/-! ### The code -/

/-- The operands of a raw record: each is of the type of its field, or a
pointer in a field of its size. -/
inductive RawArgs (act : Activation Sym) (c : Context) (s : State) :
    List (RawTy .cpp) → List Val → List Word → Prop where
  | nil : RawArgs act c s [] [] []
  | cons {fld : RawTy .cpp} {flds : List (RawTy .cpp)} {v : Val} {vs : List Val} {x : Word}
      {xs : List Word} (hv : Is act c s v x)
      (hty : v.getType = ptrTy ∧ (numType fld.kind fld.sz).bits = 64 ∨
        v.getType = numType fld.kind fld.sz) (hrest : RawArgs act c s flds vs xs) :
      RawArgs act c s (fld :: flds) (v :: vs) (x :: xs)

theorem RawArgs.later {act : Activation Sym} {c c' : Context} {s s' : State}
    {flds : List (RawTy .cpp)} {vs : List Val} {xs : List Word} (h : RawArgs act c s flds vs xs)
    (hl : Later c c' s s') : RawArgs act c' s' flds vs xs := by
  induction h with
  | nil => exact .nil
  | cons hv hty _ ih => exact .cons (hv.later hl) hty ih

theorem RawArgs.length_eq {act : Activation Sym} {c : Context} {s : State}
    {flds : List (RawTy .cpp)} {vs : List Val} {xs : List Word} (h : RawArgs act c s flds vs xs) :
    vs.length = flds.length := by
  induction h with
  | nil => rfl
  | cons _ _ _ ih => rw [List.length_cons, List.length_cons, ih]

/-- The stores of the fields of an object. -/
def fieldWrites (obj : Word) : List (RawTy .cpp) → List Int → List Word → List Write
  | fld :: flds, offset :: offs, x :: xs =>
      ⟨(obj + BitVec.ofInt 64 offset).toNat, (numType fld.kind fld.sz).bytes, x.toNat⟩
        :: fieldWrites obj flds offs xs
  | _, _, _ => []

/-- A numeric type of 64 bits has eight bytes. -/
theorem numType_bytes {kind : Tagged Numkind} {sz : Int} (h : (numType kind sz).bits = 64) :
    (numType kind sz).bytes = 8 := by
  unfold numType at h ⊢
  split at h
  next hk =>
    rw [if_pos hk]
    have hb : iBits sz = 64 := h
    simp [iType, hb, Ty.bytes]
  next hk =>
    rw [if_neg hk]
    cases fType_cases sz with
    | inl hf => rw [hf]; rfl
    | inr hf =>
        rw [hf] at h
        cases h

/-- The store of one field. -/
theorem does_storeRawField {act : Activation Sym} {c : Context} {s : State} {v adr : Val}
    {x a : Word} {fld : RawTy .cpp} {Q : Unit → Context → State → Prop} (hv : Is act c s v x)
    (hty : v.getType = ptrTy ∧ (numType fld.kind fld.sz).bits = 64 ∨
      v.getType = numType fld.kind fld.sz)
    (hadr : Is act c s adr a) (hta : adr.getType = ptrTy)
    (h : ∀ c' s', Stores c c' s s' [⟨a.toNat, (numType fld.kind fld.sz).bytes, x.toNat⟩] →
      Q () c' s') :
    (storeRawField v adr (numType fld.kind fld.sz) (bitsToBytes fld.sz)).Does act c s Q := by
  have hne : numType fld.kind fld.sz ≠ ptrTy := by
    unfold numType
    split
    · exact nofun
    · cases fType_cases fld.sz with
      | inl hf => rw [hf]; exact nofun
      | inr hf => rw [hf]; exact nofun
  unfold storeRawField
  cases hty with
  | inl hty =>
      rw [if_pos hty.1]
      refine .bind (.assert (decide_eq_true hty.2) ?_)
      exact .createStoreML hv (.inl hty.1) hadr hta fun c' s' hs =>
        h c' s' (by rwa [numType_bytes hty.2])
  | inr hty =>
      rw [if_neg (by rw [hty]; exact hne)]
      refine .bind (.assert (by simp [hty]) ?_)
      exact .store_ hv hadr hta fun c' s' hs => h c' s' (by rwa [hty] at hs)

/-- The loop over the fields. -/
theorem does_initRawFields {act : Activation Sym} {c : Context} {s : State} {obj : Val} {x : Word}
    {flds : List (RawTy .cpp)} {vs : List Val} {xs : List Word} {offset : Int}
    {Q : Int → Context → State → Prop} (hobj : Is act c s obj x) (hto : obj.getType = ptrTy)
    (hargs : RawArgs act c s flds vs xs) (hf : ∀ fld ∈ flds, fld.WellFormed) (h0 : 0 ≤ offset)
    (hfit : rawEnd flds offset < 2 ^ 31)
    (h : ∀ c' s', Stores c c' s s' (fieldWrites x flds (rawOffsets flds offset) xs) →
      Q (rawEnd flds offset) c' s') :
    (initRawFields obj flds vs offset).Does act c s Q := by
  induction flds generalizing c s vs xs offset with
  | nil =>
      cases hargs
      exact .pure (h c s (Quiet.refl c s).stores)
  | cons fld flds ih =>
      cases hargs with
      | cons hv hty hrest =>
          obtain ⟨hfld, hf'⟩ := List.forall_mem_cons.mp hf
          obtain ⟨k, -, hk⟩ := hfld.szb
          obtain ⟨-, hle, -⟩ := alignOffset_spec h0 k
          rw [← hk] at hle
          have hpos : 0 < fld.szb := by rw [hk]; positivity
          have hend := (placed_rawOffsets hf'
            (show 0 ≤ alignOffset offset fld.szb + fld.szb by omega)).add_sum_le
          have hsum : 0 ≤ (flds.map RawTy.szb).sum :=
            List.sum_nonneg fun z hz => Int.le_of_lt (szb_pos hf' z hz)
          have hoff : alignOffset offset fld.szb < 2 ^ 31 := by
            have : rawEnd (fld :: flds) offset
              = rawEnd flds (alignOffset offset fld.szb + fld.szb) := rfl
            omega
          have hlo : -2 ^ 31 ≤ alignOffset offset fld.szb := by omega
          refine .bind (.createGEPTyConst hobj hto hlo hoff fun adr c₁ s₁ hq₁ hadr hta => ?_)
          refine .bind (does_storeRawField (hv.later hq₁.toLater) hty hadr hta
            fun c₂ s₂ hs₂ => ?_)
          have hl := hq₁.toLater.trans hs₂.toLater
          refine ih (hobj.later hl) (hrest.later hl) hf'
            (show 0 ≤ alignOffset offset fld.szb + fld.szb by omega) hfit fun c' s' hs => h c' s' ?_
          have hstores := (hq₁.stores.trans hs₂).trans hs
          have hone : i8Ty.bytes = 1 := rfl
          rw [hone, Nat.cast_one, Int.mul_one] at hstores
          exact hstores

/-- The size of a record: the end of its last field, rounded up to the word
size. -/
def rawSize (fields : List (RawTy .cpp)) : Int := roundToWord (rawEnd fields 0)

theorem rawSize_spec {fields : List (RawTy .cpp)} (hf : ∀ fld ∈ fields, fld.WellFormed) :
    0 ≤ rawEnd fields 0 ∧ rawSize fields % 8 = 0 ∧ rawEnd fields 0 ≤ rawSize fields ∧
      rawSize fields < rawEnd fields 0 + 8 := by
  have hend := (placed_rawOffsets hf (Int.le_refl 0)).add_sum_le
  have hsum : 0 ≤ (fields.map RawTy.szb).sum :=
    List.sum_nonneg fun z hz => Int.le_of_lt (szb_pos hf z hz)
  have h0 : 0 ≤ rawEnd fields 0 := by omega
  exact ⟨h0, roundToWord_spec h0⟩

/-- A record with fields is not empty. -/
theorem rawSize_eq_zero_iff {fields : List (RawTy .cpp)}
    (hf : ∀ fld ∈ fields, fld.WellFormed) : rawSize fields = 0 ↔ fields = [] := by
  constructor
  · intro hz
    obtain ⟨h0, -, hle, -⟩ := rawSize_spec hf
    have hend := (placed_rawOffsets hf (Int.le_refl 0)).add_sum_le
    cases fields with
    | nil => rfl
    | cons fld flds =>
        have hpos := List.forall_mem_cons.mp (szb_pos hf)
        have hsum : 0 ≤ (flds.map RawTy.szb).sum :=
          List.sum_nonneg fun z hzm => Int.le_of_lt (hpos.2 z hzm)
        have hfst : 0 < fld.szb := hpos.1
        rw [List.map_cons, List.sum_cons] at hend
        omega
  · rintro rfl
    obtain ⟨-, hmod, hle, hlt⟩ := rawSize_spec hf
    have hend : rawEnd [] 0 = 0 := rfl
    omega

/-- The code of a raw record: the descriptor goes to the allocation point, the
fields follow at their offsets, and the address of the first one is the
result. The allocation pointer is advanced by eight times the size. -/
theorem does_rawRecord {act : Activation Sym} {c : Context} {s : State}
    {desc : Asdl.Integer} (align : Int) {fields : List (RawTy .cpp)} {vs : List Val}
    {xs : List Word} {p d : Word} (hp : RegIs act c s .ALLOC_PTR p)
    (hdesc : desc.toUInt64 = some d) (hf : ∀ fld ∈ fields, fld.WellFormed)
    (hargs : RawArgs act c s fields vs xs) (hfit : rawSize fields < 2 ^ 31) :
    ((Alloc.RAW_RECORD desc align fields).codegen vs).Does act c s fun obj c' s' =>
      Is act c' s' obj (p + 8) ∧
      RegIs act c' s' .ALLOC_PTR (p + 8 + BitVec.ofInt 64 (rawSize fields * 8)) ∧
      s'.trace = s.trace ++ ⟨p.toNat, 8, d.toNat⟩ :: fieldWrites (p + 8) fields
        (rawOffsets fields 0) xs
        ++ regWrites act c .ALLOC_PTR (p + 8 + BitVec.ofInt 64 (rawSize fields * 8)) := by
  obtain ⟨h0, -, hle, -⟩ := rawSize_spec hf
  refine .bind (.mlReg hp fun ptr c₁ s₁ hq₁ hptr htp => ?_)
  refine .bind (.assert (decide_eq_true hargs.length_eq) ?_)
  refine .bind (.deref hdesc ?_)
  refine .bind (.createStoreInt (.uConst act c₁ s₁ d) rfl hptr htp fun c₂ s₂ hs₂ => ?_)
  refine .bind (.createGEPConst (hptr.later hs₂.toLater) htp (by decide) (by decide)
    fun adr c₃ s₃ hq₃ hadr hta => ?_)
  refine .bind (.asPtr hadr (.inl hta) fun obj c₄ s₄ hq₄ hobj hto => ?_)
  have hone : p + BitVec.ofInt 64 (1 * 8) = p + 8 := rfl
  rw [hone] at hobj
  have hl₄ := hq₁.toLater.trans (hs₂.toLater.trans (hq₃.toLater.trans hq₄.toLater))
  refine .bind (does_initRawFields hobj hto (hargs.later hl₄) hf (Int.le_refl 0) (by omega)
    fun c₅ s₅ hs₅ => ?_)
  refine .bind (.createGEPConst (hobj.later hs₅.toLater) hto (i := rawSize fields) (by omega)
    hfit fun bumped c₆ s₆ hq₆ hbumped htb => ?_)
  refine .bind (.setMLReg hbumped htb fun c₇ s₇ hl₇ hreg _ _ htrace => ?_)
  have hs₆ := (((hq₁.stores.trans hs₂).trans (hq₃.trans hq₄).stores).trans hs₅).trans hq₆.stores
  have hw : regWrites act c₆ .ALLOC_PTR (p + 8 + BitVec.ofInt 64 (rawSize fields * 8))
      = regWrites act c .ALLOC_PTR (p + 8 + BitVec.ofInt 64 (rawSize fields * 8)) := by
    rw [hs₆.ctx]
    rfl
  refine .pure ⟨hobj.later (hs₅.toLater.trans (hq₆.toLater.trans hl₇)), hreg, ?_⟩
  rw [htrace, hs₆.trace, hw]
  simp

/-- What is promised of a raw record: the descriptor is written at the old
allocation pointer `p` and the fields behind it, each at a multiple of its
size and as early as possible, disjoint and inside the record; the result is
the address of the first field, and the new allocation pointer is the end of
the record, which is aligned. -/
def RawRecordSpec (act : Activation Sym) (c : Context) (s : State) (desc : Asdl.Integer)
    (align : Int) (fields : List (RawTy .cpp)) (vs : List Val) (xs : List Word) (p d : Word) :
    Prop :=
  ((Alloc.RAW_RECORD desc align fields).codegen vs).Does act c s fun obj c' s' =>
    Is act c' s' obj (p + 8) ∧
    (∃ offs e, Placed 0 (fields.map RawTy.szb) offs e ∧
      (offs.zip (fields.map RawTy.szb)).Pairwise (fun f g => f.1 + f.2 ≤ g.1) ∧
      (∀ f ∈ offs.zip (fields.map RawTy.szb), 0 ≤ f.1 ∧ f.1 + f.2 ≤ rawSize fields) ∧
      e ≤ rawSize fields ∧ rawSize fields < e + 8 ∧ rawSize fields % 8 = 0 ∧
      s'.trace = s.trace ++ ⟨p.toNat, 8, d.toNat⟩ :: fieldWrites (p + 8) fields offs xs
        ++ regWrites act c .ALLOC_PTR (p + 8 + BitVec.ofInt 64 (rawSize fields))) ∧
    RegIs act c' s' .ALLOC_PTR (p + 8 + BitVec.ofInt 64 (rawSize fields)) ∧
    (p + 8 + BitVec.ofInt 64 (rawSize fields)).toNat % 8 = 0

/-- The bump counts words, so the promise is kept for an empty record only. -/
theorem RawRecordSpec.rawSize_eq_zero {act : Activation Sym} {c : Context} {s : State}
    {desc : Asdl.Integer} {align : Int} {fields : List (RawTy .cpp)} {vs : List Val}
    {xs : List Word} {p d : Word} (hp : RegIs act c s .ALLOC_PTR p)
    (hdesc : desc.toUInt64 = some d) (hf : ∀ fld ∈ fields, fld.WellFormed)
    (hargs : RawArgs act c s fields vs xs) (hfit : rawSize fields < 2 ^ 31)
    (h : RawRecordSpec act c s desc align fields vs xs p d) : rawSize fields = 0 := by
  obtain ⟨obj, c', s', hexec, -, hreg, -⟩ := does_rawRecord align hp hdesc hf hargs hfit
  obtain ⟨h0, -, hle, -⟩ := rawSize_spec hf
  obtain ⟨obj', c₁, s₁, hexec', -, -, hreg', -⟩ := h
  rw [hexec] at hexec'
  cases hexec'
  have heq := hreg.unique hreg'
  have hbump : BitVec.ofInt 64 (rawSize fields * 8) = BitVec.ofInt 64 (rawSize fields) :=
    (BitVec.add_right_inj _).mp heq
  have hint := congrArg BitVec.toInt hbump
  rw [BitVec.toInt_ofInt, BitVec.toInt_ofInt, Int.bmod_eq_of_le (by omega) (by omega),
    Int.bmod_eq_of_le (by omega) (by omega)] at hint
  omega

/-- A raw record, whose size fits the `int` it is computed in, is as promised
exactly if it has no fields: the bump of the allocation pointer counts the
size in words. -/
theorem rawRecord_iff (act : Activation Sym) (c : Context) (s : State) (desc : Asdl.Integer)
    (align : Int) (fields : List (RawTy .cpp)) (vs : List Val) (xs : List Word) (p d : Word)
    (hp : RegIs act c s .ALLOC_PTR p) (haligned : p.toNat % 8 = 0)
    (hdesc : desc.toUInt64 = some d) (hf : ∀ fld ∈ fields, fld.WellFormed)
    (hargs : RawArgs act c s fields vs xs) (hfit : rawSize fields < 2 ^ 31) :
    RawRecordSpec act c s desc align fields vs xs p d ↔ fields = [] := by
  rw [← rawSize_eq_zero_iff hf]
  constructor
  · exact RawRecordSpec.rawSize_eq_zero hp hdesc hf hargs hfit
  · intro hz
    obtain ⟨obj, c', s', hexec, hobj, hreg, htrace⟩ :=
      does_rawRecord align hp hdesc hf hargs hfit
    obtain ⟨-, hmod, hle, hlt⟩ := rawSize_spec hf
    have hplaced := placed_rawOffsets hf (Int.le_refl 0)
    have hpos := szb_pos hf
    rw [hz] at hreg htrace
    refine ⟨obj, c', s', hexec, hobj, ⟨_, _, hplaced, hplaced.pairwise hpos, ?_, hle, hlt, hmod,
      ?_⟩, ?_, ?_⟩
    · intro f hmem
      have := hplaced.inside hpos f hmem
      omega
    · rw [hz]
      exact htrace
    · rw [hz]
      exact hreg
    · rw [hz]
      show (p + 8 + 0#64).toNat % 8 = 0
      have h8 : (8 : Word).toNat = 8 := rfl
      rw [BitVec.add_zero, BitVec.toNat_add, h8]
      omega

/-- A context in which the special registers are the arguments of the function. -/
def argContext : Context :=
  { Context.create arm64Info with
    regState := ⟨fun
      | .ALLOC_PTR => some (.arg 0 ptrTy)
      | .LIMIT_PTR => some (.arg 1 ptrTy)
      | .STORE_PTR => some (.arg 2 ptrTy)
      | .EXN_HNDLR => some (.arg 3 ptrTy)
      | .VAR_PTR => some (.arg 4 ptrTy), none⟩ }

/-- A function whose first argument is the allocation pointer, and which has
three numbers among its arguments. -/
def threeDoubles : Activation Sym where
  host := .plain
  args := [some 0x1000, none, none, none, none, some 1, some 2, some 3]

theorem regIs_allocPtr (s : State) : RegIs threeDoubles argContext s .ALLOC_PTR 0x1000 :=
  ⟨⟨trivial, rfl⟩, rfl⟩

/-- An empty record is as promised. -/
theorem rawRecord_empty :
    RawRecordSpec threeDoubles argContext ⟨fun _ => [], fun _ => 0, []⟩ (Asdl.Integer.ofInt 2) 8
      [] [] [] 0x1000 2 := by
  have hf : ∀ fld ∈ ([] : List (RawTy .cpp)), fld.WellFormed := by simp
  have hsize : rawSize [] = 0 := (rawSize_eq_zero_iff hf).mpr rfl
  exact (rawRecord_iff _ _ _ _ _ _ _ _ _ _ (regIs_allocPtr _) (by decide) (by decide) hf .nil
    (by rw [hsize]; decide)).mpr rfl

/-- The fields of a record of three numbers. -/
def doubleFields : List (RawTy .cpp) := List.replicate 3 ⟨.con .FLT, 64⟩

theorem wellFormed_doubleFields : ∀ fld ∈ doubleFields, fld.WellFormed := by
  intro fld hfld
  rw [List.eq_of_mem_replicate hfld]
  exact ⟨⟨.FLT, rfl⟩, by decide⟩

/-- A record of three numbers is not as promised: its size is `24`, and the
allocation pointer is advanced by `192`. -/
theorem not_rawRecordSpec_doubleFields :
    ¬ RawRecordSpec threeDoubles argContext ⟨fun _ => [], fun _ => 0, []⟩
      (Asdl.Integer.ofInt 2) 8 doubleFields [.arg 5 .double, .arg 6 .double, .arg 7 .double]
      [1, 2, 3] 0x1000 2 := by
  have hargs : RawArgs threeDoubles argContext ⟨fun _ => [], fun _ => 0, []⟩ doubleFields
      [.arg 5 .double, .arg 6 .double, .arg 7 .double] [1, 2, 3] :=
    .cons ⟨trivial, rfl⟩ (.inr rfl) (.cons ⟨trivial, rfl⟩ (.inr rfl)
      (.cons ⟨trivial, rfl⟩ (.inr rfl) .nil))
  have hend : rawEnd doubleFields 0 = 24 := by decide
  obtain ⟨-, -, hle, hlt⟩ := rawSize_spec wellFormed_doubleFields
  intro hspec
  have hz := hspec.rawSize_eq_zero (regIs_allocPtr _) (by decide) wellFormed_doubleFields hargs
    (by omega)
  omega

end SmlnjCfg.CfgPrim
