import SmlnjCfg.ObjectFile.MemManager

/-!
# `SmlnjCfg.ObjectFile.Allocate`: every request fits, and none overlaps

The linker reserves for each class the sum of its sections' sizes, rounded up to
the greatest alignment of the class, and then asks for the sections in any
order. The bump pointer of a class stays below the linker's running sum, since
an alignment that is met divides the one that was reserved with. The theorems:

* `Ready.serve`: what one request does.
* `Ready.run`: what a sequence of requests does, by induction on the sequence.
* `serves`: the claim of a whole linking, from the first call on.
-/

set_option autoImplicit false

namespace SmlnjCfg.ObjectFile

/-! ### Words as numbers -/

theorem Align.toNat_value (a : Align) : a.value.toNat = 2 ^ a.shiftValue := by
  have hlt : 2 ^ a.shiftValue < 2 ^ 64 := Nat.pow_lt_pow_right (by decide) a.lt
  rw [Align.value, BitVec.toNat_shiftLeft, Nat.shiftLeft_eq]
  show 1 * 2 ^ a.shiftValue % 2 ^ 64 = _
  rw [Nat.one_mul, Nat.mod_eq_of_lt hlt]

/-- Without a wrap-around, `alignBy` rounds up. -/
theorem toNat_alignBy {n align : Word} {k : Nat} (halign : align.toNat = 2 ^ k)
    (hn : n.toNat + (2 ^ k - 1) < 2 ^ 64) :
    (alignBy n align).toNat = alignUp n.toNat (2 ^ k) := by
  have hk : k ≤ 64 := by
    by_contra hk
    have := Nat.pow_lt_pow_right (a := 2) (by decide) (Nat.lt_of_not_le hk)
    have := align.isLt
    omega
  have hpos := Nat.two_pow_pos k
  have hmask : (align - 1).toNat = 2 ^ k - 1 := by
    have hle : (1 : Word) ≤ align := by
      rw [BitVec.le_def, halign]
      exact hpos
    rw [BitVec.toNat_sub_of_le hle, halign]
    rfl
  have hsum : (n + (align - 1)).toNat = n.toNat + (2 ^ k - 1) := by
    rw [BitVec.toNat_add, hmask, Nat.mod_eq_of_lt hn]
  rw [alignBy, BitVec.toNat_and, BitVec.toNat_not, hmask, hsum, land_high_mask hn hk]
  rfl

/-! ### What is reserved, and what is asked for -/

/-- The arguments of `reserveAllocationSpace`. -/
structure Reservation where
  codeSzb : Word
  codeAlign : Align
  roDataSzb : Word
  roDataAlign : Align
  rwDataSzb : Word
  rwDataAlign : Align

namespace Reservation

/-- The reserved size of a class. -/
def szb (r : Reservation) : Class → Word
  | .code => r.codeSzb
  | .roData => r.roDataSzb
  | .rwData => r.rwDataSzb

/-- The reserved alignment of a class. -/
def align (r : Reservation) : Class → Align
  | .code => r.codeAlign
  | .roData => r.roDataAlign
  | .rwData => r.rwDataAlign

/-- The alignment to which all sections are padded. -/
def maxAlign (r : Reservation) : Align :=
  (((Align.ofShift 3).max r.codeAlign).max r.roDataAlign).max r.rwDataAlign

/-- The size of a class, padded. -/
def padded (r : Reservation) (c : Class) : Nat := alignUp (r.szb c).toNat r.maxAlign.value.toNat

/-- The array that is asked for has no more bytes than there are addresses. -/
def Fits (r : Reservation) : Prop :=
  r.padded .code + r.padded .roData + r.padded .rwData + 0xfff < 2 ^ 64

instance (r : Reservation) : Decidable r.Fits :=
  inferInstanceAs (Decidable (_ < 2 ^ 64))

/-- The sum that the linker computes for a class: the sizes of its requests,
rounded up to the alignment of the class. -/
def demand (r : Reservation) (c : Class) (reqs : List Request) : Nat :=
  (reqs.map fun q =>
    if q.cls = c then alignUp q.szb.toNat (r.align c).value.toNat else 0).sum

/-- The request's alignment is a power of two, and not above that of its class. -/
def Aligns (r : Reservation) (q : Request) : Prop :=
  ∃ k, q.align.toNat = 2 ^ k ∧ q.align.toNat ≤ (r.align q.cls).value.toNat

/-- What the linker guarantees of its requests. -/
structure Covers (r : Reservation) (reqs : List Request) : Prop where
  aligns : ∀ q ∈ reqs, r.Aligns q
  demand_le : ∀ c, r.demand c reqs ≤ (r.szb c).toNat

/-- The reservation by the manager of `ObjectFile`, the base alignment of which
is `0x1000`. -/
def reserve (A : ArrayNew) (r : Reservation) : Except Fault MemManager :=
  (MemManager.make (.ofShift 12)).reserveAllocationSpace A r.codeSzb r.codeAlign r.roDataSzb
    r.roDataAlign r.rwDataSzb r.rwDataAlign

end Reservation

/-- The bytes of two requests do not overlap: one range ends before the other
begins. -/
def Apart (x y : Request × Word) : Prop :=
  x.2.toNat + x.1.szb.toNat ≤ y.2.toNat ∨ y.2.toNat + y.1.szb.toNat ≤ x.2.toNat

/-- What the requests and the pointers that were returned for them are worth, in
the state that is reached. -/
structure Served (A : ArrayNew) (reqs : List Request) (ptrs : List Word) (m : MemManager)
    (base : Word) : Prop where
  length_eq : ptrs.length = reqs.length
  /-- Every pointer has the requested alignment. -/
  aligned : ∀ x ∈ reqs.zip ptrs, x.1.align.toNat ∣ x.2.toNat
  /-- No two ranges overlap. -/
  disjoint : (reqs.zip ptrs).Pairwise Apart
  /-- Every range lies inside the object file's data. -/
  inside : ∀ x ∈ reqs.zip ptrs,
    base.toNat ≤ x.2.toNat ∧ x.2.toNat + x.1.szb.toNat ≤ base.toNat + m.size.toNat
  data_eq : m.data = .ok base
  /-- The data lie inside the array. -/
  array : A.new m.totalSize = some m.mem
  inside_array : m.mem.toNat ≤ base.toNat ∧
    base.toNat + m.size.toNat ≤ m.mem.toNat + m.totalSize.toNat

/-- A linking succeeds, unless there is no memory: no assertion fails, and the
requests are served. -/
def Serves (A : ArrayNew) (r : Reservation) (reqs : List Request) : Prop :=
  r.reserve A = .error .badAlloc ∨
    ∃ m ptrs m' base, r.reserve A = .ok m ∧ m.run reqs = .ok (ptrs, m') ∧
      Served A reqs ptrs m' base

/-! ### One request -/

namespace MemManager

/-- The section of a class. -/
def sec (m : MemManager) : Class → Section
  | .code => m.code
  | .roData => m.roData
  | .rwData => m.rwData

/-- Replace the section of a class. -/
def setSec (m : MemManager) (s : Section) : Class → MemManager
  | .code => { m with code := s }
  | .roData => { m with roData := s }
  | .rwData => { m with rwData := s }

@[simp] theorem sec_setSec (m : MemManager) (s : Section) (c : Class) :
    (m.setSec s c).sec c = s := by
  cases c <;> rfl

theorem sec_setSec_of_ne (m : MemManager) (s : Section) {c d : Class} (h : d ≠ c) :
    (m.setSec s c).sec d = m.sec d := by
  cases c <;> cases d <;> first | rfl | exact absurd rfl h

/-- Both members allocate in the section of the request's class. -/
theorem serve_eq (m : MemManager) (q : Request) :
    m.serve q = (do
      assert (m.base ≠ 0) "memory has not been reserved"
      let (ptr, s) ← (m.sec q.cls).alloc q.szb (q.align.setWidth 64)
      pure (ptr, m.setSec s q.cls)) := by
  cases q with
  | code szb align => rfl
  | data szb align readOnly => cases readOnly <;> rfl

/-- Nothing but the current sizes of the sections changes, and these grow. -/
structure Grows (m m' : MemManager) : Prop where
  mem_eq : m'.mem = m.mem
  base_eq : m'.base = m.base
  baseAlign_eq : m'.baseAlign = m.baseAlign
  data_eq : ∀ c, (m'.sec c).data = (m.sec c).data
  padded_eq : ∀ c, (m'.sec c).paddedSzb = (m.sec c).paddedSzb
  szb_le : ∀ c, (m.sec c).szb.toNat ≤ (m'.sec c).szb.toNat

theorem Grows.refl (m : MemManager) : Grows m m :=
  ⟨rfl, rfl, rfl, fun _ => rfl, fun _ => rfl, fun _ => Nat.le_refl _⟩

theorem Grows.trans {m₁ m₂ m₃ : MemManager} (h₁ : Grows m₁ m₂) (h₂ : Grows m₂ m₃) :
    Grows m₁ m₃ where
  mem_eq := h₂.mem_eq.trans h₁.mem_eq
  base_eq := h₂.base_eq.trans h₁.base_eq
  baseAlign_eq := h₂.baseAlign_eq.trans h₁.baseAlign_eq
  data_eq c := (h₂.data_eq c).trans (h₁.data_eq c)
  padded_eq c := (h₂.padded_eq c).trans (h₁.padded_eq c)
  szb_le c := Nat.le_trans (h₁.szb_le c) (h₂.szb_le c)

/-- A section that has grown. -/
theorem grows_setSec (m : MemManager) {c : Class} {szb : Word}
    (h : (m.sec c).szb.toNat ≤ szb.toNat) :
    m.Grows (m.setSec { m.sec c with szb := szb } c) := by
  have hsec : ∀ d, (m.setSec { m.sec c with szb := szb } c).sec d
      = if d = c then { m.sec c with szb := szb } else m.sec d := by
    intro d
    by_cases hd : d = c
    · rw [if_pos hd, hd, sec_setSec]
    · rw [if_neg hd, sec_setSec_of_ne m _ hd]
  constructor
  · cases c <;> rfl
  · cases c <;> rfl
  · cases c <;> rfl
  · intro d
    rw [hsec]
    by_cases hd : d = c
    · rw [if_pos hd, hd]
    · rw [if_neg hd]
  · intro d
    rw [hsec]
    by_cases hd : d = c
    · rw [if_pos hd, hd]
    · rw [if_neg hd]
  · intro d
    rw [hsec]
    by_cases hd : d = c
    · rw [if_pos hd, hd]
      exact h
    · rw [if_neg hd]

theorem Grows.size_eq {m m' : MemManager} (h : Grows m m') : m'.size = m.size := by
  have hcode := h.padded_eq .code
  have hro := h.padded_eq .roData
  have hrw := h.padded_eq .rwData
  simp only [sec] at hcode hro hrw
  simp only [size, hcode, hro, hrw]

end MemManager

/-- An allocation that fits: the pointer is the current size rounded up, and the
new size is behind the rounded size of what was asked for. -/
theorem Section.alloc_ok {s : Section} {nb align : Word} {k used A : Nat}
    (halign : align.toNat = 2 ^ k) (hkA : 2 ^ k ∣ A) (hA : 0 < A) (hused : A ∣ used)
    (hszb : s.szb.toNat ≤ used) (hroom : used + alignUp nb.toNat A ≤ s.paddedSzb.toNat)
    (hpadded : s.paddedSzb.toNat + A ≤ 2 ^ 64) (hdata : 0 < s.data.toNat)
    (htop : s.data.toNat + s.paddedSzb.toNat < 2 ^ 64) :
    ∃ ptr szb, s.alloc nb align = .ok (ptr, { s with szb := szb }) ∧
      ptr.toNat = s.data.toNat + alignUp s.szb.toNat (2 ^ k) ∧
      szb.toNat = alignUp s.szb.toNat (2 ^ k) + alignUp nb.toNat (2 ^ k) := by
  have hle := Nat.le_of_dvd hA hkA
  have hpos := Nat.two_pow_pos k
  have hnb : nb.toNat ≤ alignUp nb.toNat A := le_alignUp hA
  have hbudget := bump_le_budget nb.toNat hA hkA hszb hused
  have hoff : (alignBy s.szb align).toNat = alignUp s.szb.toNat (2 ^ k) :=
    toNat_alignBy halign (by omega)
  have hsize : (alignBy nb align).toNat = alignUp nb.toNat (2 ^ k) :=
    toNat_alignBy halign (by omega)
  have hsum : (alignBy s.szb align + alignBy nb align).toNat
      = alignUp s.szb.toNat (2 ^ k) + alignUp nb.toNat (2 ^ k) := by
    rw [BitVec.toNat_add, hoff, hsize, Nat.mod_eq_of_lt (by omega)]
  have hptr : (s.data + alignBy s.szb align).toNat
      = s.data.toNat + alignUp s.szb.toNat (2 ^ k) := by
    rw [BitVec.toNat_add, hoff, Nat.mod_eq_of_lt (by omega)]
  have hback : s.data + alignBy s.szb align - s.data = alignBy s.szb align := by
    rw [BitVec.add_comm, BitVec.add_sub_cancel]
  refine ⟨s.data + alignBy s.szb align, alignBy s.szb align + alignBy nb align, ?_, hptr, hsum⟩
  have hne : s.data ≠ 0 := by
    intro h
    rw [h] at hdata
    exact absurd hdata (by decide)
  have hle : alignBy s.szb align + alignBy nb align ≤ s.paddedSzb := by
    rw [BitVec.le_def, hsum]
    omega
  simp only [Section.alloc, assert, if_pos hne, if_pos hle, hback]
  rfl

/-! ### The state of a linking -/

/-- The manager can serve requests, after requests of the sizes `used` per
class, rounded up to the alignment of the class. -/
structure Ready (r : Reservation) (m : MemManager) (used : Class → Nat) : Prop where
  base_ne : m.base ≠ 0
  data_pos (c : Class) : 0 < (m.sec c).data.toNat
  top_lt (c : Class) : (m.sec c).data.toNat + (m.sec c).paddedSzb.toNat < 2 ^ 64
  room (c : Class) : (m.sec c).paddedSzb.toNat + (r.align c).value.toNat ≤ 2 ^ 64
  aligned (c : Class) : (r.align c).value.toNat ∣ (m.sec c).data.toNat
  szb_le (c : Class) : (m.sec c).szb.toNat ≤ used c
  used_dvd (c : Class) : (r.align c).value.toNat ∣ used c

namespace Ready

variable {r : Reservation} {m : MemManager} {used : Class → Nat}

/-- What has been used of a class may be more, if the state still has room. -/
theorem grow {m' : MemManager} {used' : Class → Nat} (h : Ready r m used) (hm : m.Grows m')
    (hszb : ∀ c, (m'.sec c).szb.toNat ≤ used' c)
    (hdvd : ∀ c, (r.align c).value.toNat ∣ used' c) : Ready r m' used' where
  base_ne := hm.base_eq ▸ h.base_ne
  data_pos c := by
    rw [hm.data_eq]
    exact h.data_pos c
  top_lt c := by
    rw [hm.data_eq, hm.padded_eq]
    exact h.top_lt c
  room c := by
    rw [hm.padded_eq]
    exact h.room c
  aligned c := by
    rw [hm.data_eq]
    exact h.aligned c
  szb_le := hszb
  used_dvd := hdvd

/-- One request takes its rounded size off what was reserved for its class. Its
range begins behind the current size of the section, and ends at the new one. -/
theorem serve (h : Ready r m used) {q : Request} (hq : r.Aligns q)
    (hroom : used q.cls + alignUp q.szb.toNat (r.align q.cls).value.toNat
      ≤ (m.sec q.cls).paddedSzb.toNat) :
    ∃ ptr m', m.serve q = .ok (ptr, m') ∧ m.Grows m' ∧
      Ready r m' (fun c => used c +
        if q.cls = c then alignUp q.szb.toNat (r.align c).value.toNat else 0) ∧
      q.align.toNat ∣ ptr.toNat ∧
      (m.sec q.cls).data.toNat + (m.sec q.cls).szb.toNat ≤ ptr.toNat ∧
      ptr.toNat + q.szb.toNat ≤ (m.sec q.cls).data.toNat + (m'.sec q.cls).szb.toNat := by
  obtain ⟨k, hk, hle⟩ := hq
  have halign : (q.align.setWidth 64).toNat = 2 ^ k := by
    have := q.align.isLt
    rw [BitVec.toNat_setWidth, hk, Nat.mod_eq_of_lt (by omega)]
  have hA : 0 < (r.align q.cls).value.toNat := by
    rw [Align.toNat_value]
    exact Nat.two_pow_pos _
  have hkA : 2 ^ k ∣ (r.align q.cls).value.toNat := by
    rw [Align.toNat_value] at hle ⊢
    rw [hk] at hle
    exact Nat.pow_dvd_pow 2 ((Nat.pow_le_pow_iff_right (by decide)).mp hle)
  have halloc := Section.alloc_ok halign hkA hA (h.used_dvd q.cls) (h.szb_le q.cls) hroom
    (h.room q.cls) (h.data_pos q.cls) (h.top_lt q.cls)
  obtain ⟨ptr, szb, hrun, hptr, hszb⟩ := halloc
  have hpos := Nat.two_pow_pos k
  have hoff : (m.sec q.cls).szb.toNat ≤ alignUp (m.sec q.cls).szb.toNat (2 ^ k) :=
    le_alignUp hpos
  have hnb : q.szb.toNat ≤ alignUp q.szb.toNat (2 ^ k) := le_alignUp hpos
  have hbudget := bump_le_budget q.szb.toNat hA hkA (h.szb_le q.cls)
    (h.used_dvd q.cls)
  have hgrows : m.Grows (m.setSec { m.sec q.cls with szb := szb } q.cls) :=
    m.grows_setSec (by omega)
  refine ⟨ptr, m.setSec { m.sec q.cls with szb := szb } q.cls, ?_, hgrows, ?_, ?_, ?_, ?_⟩
  · rw [m.serve_eq, assert, if_pos h.base_ne, hrun]
    rfl
  · refine h.grow hgrows ?_ ?_
    · intro c
      by_cases hc : q.cls = c
      · subst hc
        rw [MemManager.sec_setSec, if_pos rfl]
        show szb.toNat ≤ _
        omega
      · rw [MemManager.sec_setSec_of_ne m _ (Ne.symm hc), if_neg hc]
        exact h.szb_le c
    · intro c
      by_cases hc : q.cls = c
      · rw [if_pos hc]
        exact Nat.dvd_add (h.used_dvd c) (dvd_alignUp _ _)
      · rw [if_neg hc]
        exact h.used_dvd c
  · rw [hk, hptr]
    exact Nat.dvd_add (Nat.dvd_trans hkA (h.aligned q.cls)) (dvd_alignUp _ _)
  · omega
  · rw [MemManager.sec_setSec]
    show ptr.toNat + q.szb.toNat ≤ (m.sec q.cls).data.toNat + szb.toNat
    omega

/-- A sequence of requests whose demand is reserved. Every range begins behind the
current size of its section, and the ranges of a class follow one another. -/
theorem run {reqs : List Request} (h : Ready r m used) (hreqs : ∀ q ∈ reqs, r.Aligns q)
    (hroom : ∀ c, used c + r.demand c reqs ≤ (m.sec c).paddedSzb.toNat) :
    ∃ ptrs m', m.run reqs = .ok (ptrs, m') ∧ m.Grows m' ∧ ptrs.length = reqs.length ∧
      (∀ x ∈ reqs.zip ptrs, x.1.align.toNat ∣ x.2.toNat ∧
        (m.sec x.1.cls).data.toNat + (m.sec x.1.cls).szb.toNat ≤ x.2.toNat ∧
        x.2.toNat + x.1.szb.toNat
          ≤ (m.sec x.1.cls).data.toNat + (m.sec x.1.cls).paddedSzb.toNat) ∧
      (reqs.zip ptrs).Pairwise fun x y =>
        x.1.cls = y.1.cls → x.2.toNat + x.1.szb.toNat ≤ y.2.toNat := by
  induction reqs generalizing m used with
  | nil => exact ⟨[], m, rfl, .refl m, rfl, by simp, List.Pairwise.nil⟩
  | cons q reqs ih =>
      have hcons : ∀ c, r.demand c (q :: reqs)
          = (if q.cls = c then alignUp q.szb.toNat (r.align c).value.toNat else 0)
            + r.demand c reqs := fun c => List.sum_cons
      have hfirst := hroom q.cls
      rw [hcons, if_pos rfl] at hfirst
      obtain ⟨ptr, m₁, hserve, hgrows, hready, hdvd, hlo, hhi⟩ :=
        h.serve (hreqs q List.mem_cons_self) (by omega)
      -- what is left of the budget is enough for the rest
      have hrest : ∀ c, used c + (if q.cls = c then
          alignUp q.szb.toNat (r.align c).value.toNat else 0) + r.demand c reqs
            ≤ (m₁.sec c).paddedSzb.toNat := by
        intro c
        have := hroom c
        rw [hcons] at this
        rw [hgrows.padded_eq]
        omega
      obtain ⟨ptrs, m', hrun, hgrows', hlen, hall, hpair⟩ :=
        ih hready (fun x hx => hreqs x (List.mem_cons_of_mem q hx)) hrest
      have htop : (m₁.sec q.cls).szb.toNat ≤ (m.sec q.cls).paddedSzb.toNat := by
        have := hready.szb_le q.cls
        rw [if_pos rfl] at this
        omega
      refine ⟨ptr :: ptrs, m', ?_, hgrows.trans hgrows', by simp [hlen], ?_, ?_⟩
      · exact MemManager.run_cons hserve hrun
      · rw [List.zip_cons_cons, List.forall_mem_cons]
        constructor
        · refine ⟨hdvd, hlo, ?_⟩
          show ptr.toNat + q.szb.toNat
            ≤ (m.sec q.cls).data.toNat + (m.sec q.cls).paddedSzb.toNat
          omega
        · intro x hx
          have hx := hall x hx
          have hszb := hgrows.szb_le x.1.cls
          rw [hgrows.data_eq, hgrows.padded_eq] at hx
          refine ⟨hx.1, ?_, hx.2.2⟩
          omega
      · rw [List.zip_cons_cons, List.pairwise_cons]
        refine ⟨?_, hpair⟩
        intro x hx hcls
        have hx := (hall x hx).2.1
        show ptr.toNat + q.szb.toNat ≤ x.2.toNat
        replace hcls : q.cls = x.1.cls := hcls
        rw [← hcls, hgrows.data_eq] at hx
        omega

end Ready

/-! ### The reservation -/

theorem shiftValue_max (a b : Align) :
    (a.max b).shiftValue = max a.shiftValue b.shiftValue := by
  rw [Align.max]
  split <;> omega

namespace Reservation

variable (r : Reservation)

theorem shiftValue_le_maxAlign (c : Class) :
    (r.align c).shiftValue ≤ r.maxAlign.shiftValue := by
  simp only [maxAlign, shiftValue_max]
  cases c <;> simp only [align] <;> omega

/-- The alignment of a class divides the common one. -/
theorem value_dvd_maxAlign (c : Class) :
    (r.align c).value.toNat ∣ r.maxAlign.value.toNat := by
  rw [Align.toNat_value, Align.toNat_value]
  exact Nat.pow_dvd_pow 2 (r.shiftValue_le_maxAlign c)

variable {r}

/-- The common alignment divides that of the base. -/
theorem maxAlign_dvd (h : ∀ c, (r.align c).value.toNat ≤ 0x1000) :
    r.maxAlign.value.toNat ∣ 0x1000 := by
  have hshift : ∀ c, (r.align c).shiftValue ≤ 12 := by
    intro c
    have := h c
    rw [Align.toNat_value] at this
    exact (Nat.pow_le_pow_iff_right (a := 2) (by decide)).mp this
  have hmax : r.maxAlign.shiftValue ≤ 12 := by
    have hmin : (Align.ofShift 3).shiftValue = 3 := rfl
    simp only [maxAlign, shiftValue_max, hmin]
    have hcode := hshift .code
    have hro := hshift .roData
    have hrw := hshift .rwData
    simp only [align] at hcode hro hrw
    omega
  rw [Align.toNat_value]
  exact Nat.pow_dvd_pow 2 hmax

variable (r)

/-- The padded size of a class, as it is computed. -/
def paddedSzb (c : Class) : Word := alignBy (r.szb c) r.maxAlign.value

/-- The manager after the reservation, for an array at `mem`. -/
def manager (mem : Word) : MemManager :=
  let base := alignBy mem 0x1000
  { mem := mem, base := base, baseAlign := 0x1000
    code := { data := base, szb := 0, paddedSzb := r.paddedSzb .code }
    roData := { data := base + r.paddedSzb .code, szb := 0, paddedSzb := r.paddedSzb .roData }
    rwData := { data := base + r.paddedSzb .code + r.paddedSzb .roData, szb := 0
                paddedSzb := r.paddedSzb .rwData } }

/-- The steps of a reservation. -/
theorem reserve_eq (A : ArrayNew) :
    r.reserve A = (do
      let mem ← A.newArray (r.manager 0).totalSize
      assert ((r.manager mem).base + (r.manager mem).size
        ≤ (r.manager mem).mem + (r.manager mem).totalSize) "too small"
      pure (r.manager mem)) := rfl

variable {r}

theorem le_padded (c : Class) : (r.szb c).toNat ≤ r.padded c := by
  have hpos : 0 < r.maxAlign.value.toNat := by
    rw [Align.toNat_value]
    exact Nat.two_pow_pos _
  exact le_alignUp hpos

/-- Where everything fits, the padded sizes are computed without a wrap-around. -/
theorem toNat_paddedSzb (h : ∀ c, (r.align c).value.toNat ≤ 0x1000) (hfits : r.Fits)
    (c : Class) : (r.paddedSzb c).toNat = r.padded c := by
  have hmax := Nat.le_of_dvd (by decide) (maxAlign_dvd h)
  have hle : r.padded c + 0xfff < 2 ^ 64 := by
    rw [Fits] at hfits
    cases c <;> omega
  have hszb := r.le_padded (c := c)
  rw [padded, Align.toNat_value]
  rw [Align.toNat_value] at hmax
  exact toNat_alignBy (Align.toNat_value _) (by omega)

/-- The sizes and the addresses of a manager whose array was allocated. -/
structure Laid (r : Reservation) (m : MemManager) : Prop where
  size : m.size.toNat = r.padded .code + r.padded .roData + r.padded .rwData
  totalSize : m.totalSize.toNat = m.size.toNat + 0xfff
  mem_le : m.mem.toNat ≤ m.base.toNat
  base_le : m.base.toNat ≤ m.mem.toNat + 0xfff
  base_dvd : 0x1000 ∣ m.base.toNat
  code : m.code.data.toNat = m.base.toNat
  roData : m.roData.data.toNat = m.base.toNat + r.padded .code
  rwData : m.rwData.data.toNat = m.base.toNat + r.padded .code + r.padded .roData

theorem laid (h : ∀ c, (r.align c).value.toNat ≤ 0x1000) (hfits : r.Fits) {mem : Word}
    (hmem : mem.toNat + (r.manager mem).totalSize.toNat < 2 ^ 64) :
    r.Laid (r.manager mem) := by
  have hcode := toNat_paddedSzb h hfits .code
  have hro := toNat_paddedSzb h hfits .roData
  have hrw := toNat_paddedSzb h hfits .rwData
  rw [Fits] at hfits
  have hsize : (r.manager mem).size.toNat
      = r.padded .code + r.padded .roData + r.padded .rwData := by
    show (r.paddedSzb .code + r.paddedSzb .roData + r.paddedSzb .rwData).toNat = _
    rw [BitVec.toNat_add, BitVec.toNat_add, hcode, hro, hrw]
    omega
  have htotal : (r.manager mem).totalSize.toNat = (r.manager mem).size.toNat + 0xfff := by
    show ((r.manager mem).size + 0x1000 - 1).toNat = _
    have hsum : (r.manager mem).size + 0x1000 - 1 = (r.manager mem).size + 0xfff#64 := by
      rw [BitVec.sub_eq_add_neg, BitVec.add_assoc]
      rfl
    rw [hsum, BitVec.toNat_add]
    show ((r.manager mem).size.toNat + 0xfff) % 2 ^ 64 = _
    omega
  have hbase : (r.manager mem).base.toNat = alignUp mem.toNat (2 ^ 12) :=
    toNat_alignBy rfl (by omega)
  have hle := le_alignUp (n := mem.toNat) (a := 2 ^ 12) (by decide)
  have hlt := alignUp_lt (n := mem.toNat) (a := 2 ^ 12) (by decide)
  have hbase_le : (r.manager mem).base.toNat ≤ mem.toNat + 0xfff := by omega
  constructor
  · exact hsize
  · exact htotal
  · show mem.toNat ≤ _
    omega
  · exact hbase_le
  · rw [hbase]
    exact dvd_alignUp _ _
  · rfl
  · show ((r.manager mem).base + r.paddedSzb .code).toNat = _
    rw [BitVec.toNat_add, hcode]
    omega
  · show ((r.manager mem).base + r.paddedSzb .code + r.paddedSzb .roData).toNat = _
    rw [BitVec.toNat_add, BitVec.toNat_add, hcode, hro]
    omega

/-- The sections lie inside the data, and none overlaps another. -/
theorem Laid.windows {mem : Word} (h : r.Laid (r.manager mem))
    (hpadded : ∀ c, (r.paddedSzb c).toNat = r.padded c) (c d : Class) :
    ((r.manager mem).base.toNat ≤ ((r.manager mem).sec c).data.toNat ∧
      ((r.manager mem).sec c).data.toNat + ((r.manager mem).sec c).paddedSzb.toNat
        ≤ (r.manager mem).base.toNat + (r.manager mem).size.toNat) ∧
    (c ≠ d →
      ((r.manager mem).sec c).data.toNat + ((r.manager mem).sec c).paddedSzb.toNat
        ≤ ((r.manager mem).sec d).data.toNat ∨
      ((r.manager mem).sec d).data.toNat + ((r.manager mem).sec d).paddedSzb.toNat
        ≤ ((r.manager mem).sec c).data.toNat) := by
  have hsec : ∀ c, ((r.manager mem).sec c).paddedSzb.toNat = r.padded c := by
    intro c
    rw [← hpadded c]
    cases c <;> rfl
  have hcode := h.code
  have hro := h.roData
  have hrw := h.rwData
  have hsize := h.size
  rw [hsec c, hsec d]
  constructor
  · cases c <;> simp only [MemManager.sec] <;> omega
  · intro hne
    cases c <;> cases d <;> simp only [MemManager.sec] <;> first | omega | exact absurd rfl hne

/-- After the reservation nothing is used yet. -/
theorem ready (h : ∀ c, (r.align c).value.toNat ≤ 0x1000) (hfits : r.Fits) {mem : Word}
    (hpos : 0 < mem.toNat) (hmem : mem.toNat + (r.manager mem).totalSize.toNat < 2 ^ 64) :
    Ready r (r.manager mem) fun _ => 0 := by
  have hlaid := laid h hfits hmem
  have hpadded := toNat_paddedSzb h hfits
  have hmax := maxAlign_dvd h
  have hsec : ∀ c, ((r.manager mem).sec c).paddedSzb.toNat = r.padded c := by
    intro c
    rw [← hpadded c]
    cases c <;> rfl
  have hmem_le := hlaid.mem_le
  have hbase : 0 < (r.manager mem).base.toNat := by
    have : (r.manager mem).mem = mem := rfl
    rw [this] at hmem_le
    omega
  have hwin := fun c => (hlaid.windows hpadded c c).1
  have hbase_le := hlaid.base_le
  have htotal := hlaid.totalSize
  have hend : (r.manager mem).base.toNat + (r.manager mem).size.toNat < 2 ^ 64 := by
    have : (r.manager mem).mem = mem := rfl
    rw [this] at hbase_le
    omega
  constructor
  · intro hzero
    rw [hzero] at hbase
    exact absurd hbase (by decide)
  · intro c
    have := (hwin c).1
    omega
  · intro c
    have := (hwin c).2
    omega
  · intro c
    have hc := h c
    rw [hsec c]
    rw [Fits] at hfits
    cases c <;> omega
  · intro c
    -- the padded sizes are multiples of the common alignment, and the base of more
    have hvalue := r.value_dvd_maxAlign c
    have hbase_dvd := Nat.dvd_trans hvalue (Nat.dvd_trans hmax hlaid.base_dvd)
    have hcode := Nat.dvd_trans hvalue (dvd_alignUp (r.szb .code).toNat r.maxAlign.value.toNat)
    have hro := Nat.dvd_trans hvalue (dvd_alignUp (r.szb .roData).toNat r.maxAlign.value.toNat)
    cases c with
    | code =>
        show _ ∣ (r.manager mem).code.data.toNat
        rw [hlaid.code]
        exact hbase_dvd
    | roData =>
        show _ ∣ (r.manager mem).roData.data.toNat
        rw [hlaid.roData]
        exact Nat.dvd_add hbase_dvd hcode
    | rwData =>
        show _ ∣ (r.manager mem).rwData.data.toNat
        rw [hlaid.rwData]
        exact Nat.dvd_add (Nat.dvd_add hbase_dvd hcode) hro
  · intro c
    cases c <;> exact Nat.le_refl 0
  · intro c
    exact Nat.dvd_zero _

end Reservation

/-- Whatever the order and the alignments of the requests: if the linker
guarantees what it computes, then no assertion fails, every pointer is aligned,
and the ranges lie inside the data without an overlap. -/
theorem serves (A : ArrayNew) (r : Reservation) (h : ∀ c, (r.align c).value.toNat ≤ 0x1000)
    (hfits : r.Fits) (reqs : List Request) (hreqs : r.Covers reqs) : Serves A r reqs := by
  rw [Serves, r.reserve_eq, ArrayNew.newArray]
  cases hnew : A.new (r.manager 0).totalSize with
  | none => exact .inl rfl
  | some mem =>
      refine .inr ?_
      have hmem : mem.toNat + (r.manager mem).totalSize.toNat < 2 ^ 64 := A.fits _ mem hnew
      have hlaid := Reservation.laid h hfits hmem
      have hpadded := Reservation.toNat_paddedSzb h hfits
      have hready := Reservation.ready h hfits (A.nonnull _ mem hnew) hmem
      have hwin := hlaid.windows hpadded
      have hbase_le := hlaid.base_le
      have htotal := hlaid.totalSize
      have hbig : (r.manager mem).base + (r.manager mem).size
          ≤ (r.manager mem).mem + (r.manager mem).totalSize := by
        have : (r.manager mem).mem = mem := rfl
        rw [this] at hbase_le ⊢
        rw [BitVec.le_def, BitVec.toNat_add, BitVec.toNat_add, Nat.mod_eq_of_lt (by omega),
          Nat.mod_eq_of_lt hmem]
        omega
      -- the linker's sum is at most the padded size
      have hroom : ∀ c, 0 + r.demand c reqs ≤ ((r.manager mem).sec c).paddedSzb.toNat := by
        intro c
        have hdemand := hreqs.demand_le c
        have hle := Reservation.le_padded (r := r) c
        rw [← hpadded c] at hle
        cases c <;> exact Nat.le_trans (by omega) hle
      obtain ⟨ptrs, m', hrun, hgrows, hlen, hall, hpair⟩ := hready.run hreqs.aligns hroom
      refine ⟨r.manager mem, ptrs, m', (r.manager mem).base, ?_, hrun, ?_⟩
      · show (do
          assert _ "too small"
          pure (r.manager mem)) = _
        rw [assert, if_pos hbig]
        rfl
      · have hsize := hgrows.size_eq
        have htotal' : m'.totalSize = (r.manager mem).totalSize := by
          rw [MemManager.totalSize, MemManager.totalSize, hsize, hgrows.baseAlign_eq]
        constructor
        · exact hlen
        · intro x hx
          exact (hall x hx).1
        · refine hpair.imp_of_mem ?_
          intro x y hx hy hxy
          by_cases hcls : x.1.cls = y.1.cls
          · exact .inl (hxy hcls)
          · -- different classes have different windows
            have hx := (hall x hx).2
            have hy := (hall y hy).2
            rw [Apart]
            rcases (hwin x.1.cls y.1.cls).2 hcls with hlt | hlt
            · exact .inl (by omega)
            · exact .inr (by omega)
        · intro x hx
          have hx := (hall x hx).2
          have hin := (hwin x.1.cls x.1.cls).1
          rw [hsize]
          constructor <;> omega
        · rw [MemManager.data, assert, hgrows.base_eq, if_pos hready.base_ne]
          rfl
        · rw [htotal', hgrows.mem_eq]
          exact hnew
        · rw [hsize, htotal', hgrows.mem_eq]
          exact ⟨hlaid.mem_le, by omega⟩

/-- A heap the first free address of which is `0x10000`. -/
def heapFrom : ArrayNew where
  new n := if 0x10000 + n.toNat < 2 ^ 64 then some 0x10000 else none
  nonnull n p h := by
    split at h
    · cases h
      decide
    · cases h
  fits n p h := by
    split at h
    · cases h
      assumption
    · cases h

/-- The sizes of two sections of code and two of read-only data. -/
def linked : Reservation :=
  { codeSzb := 112, codeAlign := .ofShift 4, roDataSzb := 40, roDataAlign := .ofShift 3
    rwDataSzb := 0, rwDataAlign := .ofShift 0 }

theorem serves_linked :
    Serves heapFrom linked [.data 24 8 true, .code 50 4, .code 40 16, .data 10 1 true] := by
  refine serves heapFrom linked ?_ (by decide) _ ⟨?_, ?_⟩
  · intro c
    cases c <;> decide
  · intro q hq
    simp only [List.mem_cons, List.not_mem_nil, or_false] at hq
    rcases hq with rfl | rfl | rfl | rfl
    · exact ⟨3, by decide, by decide⟩
    · exact ⟨2, by decide, by decide⟩
    · exact ⟨4, by decide, by decide⟩
    · exact ⟨0, by decide, by decide⟩
  · intro c
    cases c <;> decide

/-! ### An array that does not fit -/

/-- A size of code that rounds up to `2 ^ 64`. -/
def wrapping : Reservation :=
  { codeSzb := -1, codeAlign := .ofShift 0, roDataSzb := 0, roDataAlign := .ofShift 0
    rwDataSzb := 0, rwDataAlign := .ofShift 0 }

/-- The padded size of the code wraps around to zero, so the space for one byte is
not there. -/
theorem not_serves_wrapping :
    (∀ c, (wrapping.align c).value.toNat ≤ 0x1000) ∧ wrapping.Covers [.code 1 1] ∧
      ¬ Serves heapFrom wrapping [.code 1 1] := by
  refine ⟨?_, ⟨?_, ?_⟩, ?_⟩
  · intro c
    cases c <;> decide
  · intro q hq
    rw [List.mem_singleton] at hq
    subst hq
    exact ⟨0, by decide, by decide⟩
  · intro c
    cases c <;> decide
  · have hreserve : wrapping.reserve heapFrom = .ok (wrapping.manager 0x10000) := by
      decide +kernel
    have hrun : (wrapping.manager 0x10000).run [.code 1 1]
        = .error (.assertion "insufficient space for allocation") := by
      decide +kernel
    rintro (h | ⟨m, ptrs, m', base, hm, hserved, -⟩)
    · rw [hreserve] at h
      cases h
    · rw [hreserve] at hm
      cases hm
      rw [hrun] at hserved
      cases hserved

end SmlnjCfg.ObjectFile
