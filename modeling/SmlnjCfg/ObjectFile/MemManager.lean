import SmlnjCfg.Lib.Arena

/-!
# `SmlnjCfg.ObjectFile.MemManager`: the memory of a loaded object file

The `MemManager` of `object-file.cpp`. The linker first reserves the space of
the code, of the read-only data and of the read-write data; the three sections
lie one after the other in one array. Then it asks for the space of each section
of the object file. Sizes and addresses are 64-bit words, and the arithmetic on
them wraps around as in the code.
-/

set_option autoImplicit false

namespace SmlnjCfg.ObjectFile

/-- A `uintptr_t`, a `size_t` or the address in a `uint8_t *`. -/
abbrev Word := BitVec 64

/-- How a call ends when it does not return: an `assert` fails, or `new` throws. -/
inductive Fault where
  | assertion (msg : String)
  | badAlloc
  deriving DecidableEq

/-- `assert`. -/
def assert (p : Prop) [Decidable p] (msg : String) : Except Fault Unit :=
  if p then .ok () else .error (.assertion msg)

/-- `new uint8_t[n]`: the address of the array, which is not null, and neither is
the address past the array's end. -/
structure ArrayNew where
  new : Word → Option Word
  nonnull : ∀ n p, new n = some p → 0 < p.toNat
  fits : ∀ n p, new n = some p → p.toNat + n.toNat < 2 ^ 64

/-- The array that `new` returns, or its exception. -/
def ArrayNew.newArray (A : ArrayNew) (n : Word) : Except Fault Word :=
  match A.new n with
  | some p => .ok p
  | none => .error .badAlloc

/-- `llvm::Align`: the logarithm of the alignment. -/
structure Align where
  shiftValue : Nat
  lt : shiftValue < 64
  deriving DecidableEq

/-- The alignment to `2 ^ k` bytes. -/
def Align.ofShift (k : Nat) : Align := ⟨k % 64, Nat.mod_lt k (Nat.zero_lt_succ 63)⟩

/-- `llvm::Align::value`. -/
def Align.value (a : Align) : Word := 1#64 <<< a.shiftValue

/-- The greater one of two alignments, as the `if` statements of
`reserveAllocationSpace` compute it. -/
def Align.max (a b : Align) : Align := if b.shiftValue > a.shiftValue then b else a

/-- `alignBy`. -/
def alignBy (n align : Word) : Word := (n + (align - 1)) &&& ~~~(align - 1)

/-! ### Sections -/

/-- `_Section`. -/
structure Section where
  /-- The base address. -/
  data : Word
  /-- The current size: what has been allocated so far. -/
  szb : Word
  /-- The padded size. -/
  paddedSzb : Word
  deriving DecidableEq

namespace Section

/-- The constructor. -/
def empty : Section := { data := 0, szb := 0, paddedSzb := 0 }

/-- `setSize`. -/
def setSize (s : Section) (szb : Word) (align : Align) : Section :=
  { s with paddedSzb := alignBy szb align.value }

/-- `top`: the next address past this section. -/
def top (s : Section) : Word := s.data + s.paddedSzb

/-- `alloc`: allocate memory in the section. -/
def alloc (s : Section) (nb align : Word) : Except Fault (Word × Section) := do
  assert (s.data ≠ 0) "no memory allocated for section"
  assert (alignBy s.szb align + alignBy nb align ≤ s.paddedSzb)
    "insufficient space for allocation"
  -- the base for this allocation
  let ptr := s.data + alignBy s.szb align
  -- the new size
  let szb := (ptr - s.data) + alignBy nb align
  pure (ptr, { s with szb := szb })

end Section

/-! ### The manager -/

/-- `MemManager`. -/
structure MemManager where
  /-- The allocated memory. -/
  mem : Word
  /-- The base address of the object file's data. -/
  base : Word
  /-- The alignment of `base`. -/
  baseAlign : Word
  code : Section
  roData : Section
  rwData : Section
  deriving DecidableEq

namespace MemManager

/-- The constructor. -/
def make (align : Align) : MemManager :=
  { mem := 0, base := 0, baseAlign := align.value, code := .empty, roData := .empty,
    rwData := .empty }

/-- `data`. -/
def data (m : MemManager) : Except Fault Word := do
  assert (m.base ≠ 0) "no memory allocated"
  pure m.base

/-- `size`: the total size of the memory object. -/
def size (m : MemManager) : Word := m.code.paddedSzb + m.roData.paddedSzb + m.rwData.paddedSzb

/-- `totalSize`: the size of the array, padded so that the base can be aligned. -/
def totalSize (m : MemManager) : Word := m.size + m.baseAlign - 1

/-- `reserveAllocationSpace`. -/
def reserveAllocationSpace (A : ArrayNew) (m : MemManager) (codeSzb : Word) (codeAlign : Align)
    (roDataSzb : Word) (roDataAlign : Align) (rwDataSzb : Word) (rwDataAlign : Align) :
    Except Fault MemManager := do
  assert (m.mem = 0) "memory already allocated"
  -- the greatest alignment is the padding of all sections, since they are
  -- concatenated
  let maxAlign := Align.ofShift 3
  let maxAlign := maxAlign.max codeAlign
  let maxAlign := maxAlign.max roDataAlign
  let maxAlign := maxAlign.max rwDataAlign
  let m := { m with code := m.code.setSize codeSzb maxAlign
                    roData := m.roData.setSize roDataSzb maxAlign
                    rwData := m.rwData.setSize rwDataSzb maxAlign }
  let mem ← A.newArray m.totalSize
  let m := { m with mem := mem, base := alignBy mem m.baseAlign }
  assert (m.base + m.size ≤ m.mem + m.totalSize) "too small"
  -- the base addresses of the sections
  let m := { m with code := { m.code with data := m.base } }
  let m := { m with roData := { m.roData with data := m.code.top } }
  let m := { m with rwData := { m.rwData with data := m.roData.top } }
  pure m

/-- `allocateCodeSection`. -/
def allocateCodeSection (m : MemManager) (szb : Word) (align : BitVec 32) :
    Except Fault (Word × MemManager) := do
  assert (m.base ≠ 0) "memory has not been reserved"
  let (ptr, code) ← m.code.alloc szb (align.setWidth 64)
  pure (ptr, { m with code := code })

/-- `allocateDataSection`. -/
def allocateDataSection (m : MemManager) (szb : Word) (align : BitVec 32) (readOnly : Bool) :
    Except Fault (Word × MemManager) := do
  assert (m.base ≠ 0) "memory has not been reserved"
  if readOnly then
    let (ptr, roData) ← m.roData.alloc szb (align.setWidth 64)
    pure (ptr, { m with roData := roData })
  else
    let (ptr, rwData) ← m.rwData.alloc szb (align.setWidth 64)
    pure (ptr, { m with rwData := rwData })

end MemManager

/-! ### Sequences of requests -/

/-- A call of one of the two allocation members. -/
inductive Request where
  | code (szb : Word) (align : BitVec 32)
  | data (szb : Word) (align : BitVec 32) (readOnly : Bool)
  deriving DecidableEq

/-- The class of a section. -/
inductive Class where
  | code | roData | rwData
  deriving DecidableEq

namespace Request

/-- The size. -/
def szb : Request → Word
  | .code szb _ => szb
  | .data szb _ _ => szb

/-- The alignment. -/
def align : Request → BitVec 32
  | .code _ align => align
  | .data _ align _ => align

/-- The class from which the request is served. -/
def cls : Request → Class
  | .code _ _ => .code
  | .data _ _ true => .roData
  | .data _ _ false => .rwData

end Request

namespace MemManager

/-- Serve a request. -/
def serve (m : MemManager) : Request → Except Fault (Word × MemManager)
  | .code szb align => m.allocateCodeSection szb align
  | .data szb align readOnly => m.allocateDataSection szb align readOnly

/-- Serve requests one after the other; the result has the returned pointers. -/
def run (m : MemManager) : List Request → Except Fault (List Word × MemManager)
  | [] => pure ([], m)
  | r :: rs => do
      let (ptr, m) ← m.serve r
      let (ptrs, m) ← m.run rs
      pure (ptr :: ptrs, m)

/-- A request that is served, and then the others. -/
theorem run_cons {m m₁ m' : MemManager} {r : Request} {rs : List Request} {ptr : Word}
    {ptrs : List Word} (hr : m.serve r = .ok (ptr, m₁)) (hrs : m₁.run rs = .ok (ptrs, m')) :
    m.run (r :: rs) = .ok (ptr :: ptrs, m') := by
  have hrun : m.run (r :: rs) = (do
      let (ptr, m) ← m.serve r
      let (ptrs, m) ← m.run rs
      pure (ptr :: ptrs, m)) := rfl
  rw [hrun, hr]
  show (do
    let (ptrs, m) ← m₁.run rs
    pure (ptr :: ptrs, m)) = _
  rw [hrs]
  rfl

end MemManager

end SmlnjCfg.ObjectFile
