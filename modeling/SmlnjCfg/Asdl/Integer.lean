import SmlnjCfg.Asdl.Stream
import Mathlib.Algebra.BigOperators.Fin
import Mathlib.Data.Nat.Digits.Lemmas
import Mathlib.Data.Nat.Size
import Mathlib.Tactic.Ring

/-!
# `SmlnjCfg.Asdl.Integer`: multiprecision integers

`asdl::integer` is a sign and a list of 32-bit digits, most significant
first. Its stream constructor reads a sign bit and six value bits in the
first byte and seven value bits in each further byte, and repacks them into
digits. The theorems:

* `packDigits_eq`: the repacking loop computes the base-`2 ^ 32` digits of
  the number the groups denote.
* `decodes_readInteger`: an integer written by `integerBytes` is read back.
* `readInteger_exact`: what the constructor makes of any bytes.
-/

set_option autoImplicit false

namespace SmlnjCfg.Asdl

/-- `asdl::integer`: a sign and big-endian 32-bit digits. -/
structure Integer where
  /-- `_sign`: the number is negative. -/
  sign : Bool
  /-- `_digits`, most significant first. -/
  digits : List (BitVec 32)
  deriving DecidableEq

namespace Integer

/-- The value of big-endian 32-bit digits. -/
def digitsVal (ds : List (BitVec 32)) : Nat :=
  ds.foldl (fun acc d => acc * 2 ^ 32 + d.toNat) 0

/-- The shortest big-endian 32-bit digits of a number. -/
def toDigits (n : Nat) : List (BitVec 32) :=
  ((Nat.digits (2 ^ 32) n).map (BitVec.ofNat 32)).reverse

/-- The representation of an integer with no leading zero digit. -/
def ofInt (i : Int) : Integer := ⟨decide (i < 0), toDigits i.natAbs⟩

/-- The mathematical value. -/
def toInt (n : Integer) : Int := if n.sign then -digitsVal n.digits else digitsVal n.digits

/-- `getSign`. -/
def getSign (n : Integer) : Int := if n.sign then -1 else 1

/-- `toInt64`, as the member that returns the value: the machine negation is
taken modulo `2 ^ 64`. The result of a number that does not fit is
undefined in the code; here it is `none`. -/
def toInt64 (n : Integer) : Option (BitVec 64) :=
  match n.digits with
  | [] => some 0
  | [d] => some (if n.sign then -d.setWidth 64 else d.setWidth 64)
  | [d, e] =>
      let un : BitVec 64 := (d.setWidth 64 <<< 32) + e.setWidth 64
      if n.sign then if un.toNat ≤ 2 ^ 63 then some (-un) else none
      else if un.toNat < 2 ^ 63 then some un else none
  | _ => none

/-- `toUInt64`, as the member that returns the value; `none` where the code
leaves the result undefined. -/
def toUInt64 (n : Integer) : Option (BitVec 64) :=
  match n.digits with
  | [] => some 0
  | [d] => some (d.setWidth 64)
  | [d, e] => some ((d.setWidth 64 <<< 32) + e.setWidth 64)
  | _ => none

end Integer

/-! ### The stream constructor -/

/-- The `while` loop that collects the groups of the further bytes. Each
round reads a byte, so a fuel above the number of bytes is never used up. -/
def readGroups : Nat → Byte → Reader (List Byte)
  | 0, _ => fun _ => .error .outOfFuel
  | fuel + 1, b =>
      if b &&& 0x80 ≠ 0 then do
        let b ← getb
        let groups ← readGroups fuel b
        pure ((b &&& 0x7f) :: groups)
      else pure []

/-- The number of significant bits in the first byte's value. -/
def firstBits (b : Byte) : Nat :=
  if b > 0x1f#8 then 6
  else if b > 0xf#8 then 5
  else if b > 0x7#8 then 4
  else if b > 0x3#8 then 3
  else if b > 0x1#8 then 2
  else if b > 0x0#8 then 1
  else 0

/-- The state of the repacking loop: the digits finished so far, the digit
under construction, and the number of bits it still lacks. -/
structure Pack where
  /-- The finished digits. -/
  digits : List (BitVec 32)
  /-- The current digit. -/
  w : BitVec 32
  /-- The number of bits available in the current digit. -/
  availBits : Nat
  deriving DecidableEq

/-- The loop's initial state: the first byte's bits, the high ones of which
may already end a digit. -/
def packInit (b : Byte) (nbits : Nat) : Pack :=
  let availBits := if nbits % 32 = 0 then 32 else nbits % 32
  let w : BitVec 32 := b.setWidth 32
  if availBits < firstBits b then
    let k := firstBits b - availBits
    { digits := [w >>> k], w := w &&& ((1#32 <<< k) - 1#32), availBits := 32 - k }
  else { digits := [], w := w, availBits := availBits - firstBits b }

/-- One round of the repacking loop. -/
def packStep (st : Pack) (b : Byte) : Pack :=
  if 7 ≤ st.availBits then
    { st with w := (st.w <<< 7) ||| b.setWidth 32, availBits := st.availBits - 7 }
  else
    let excessBits := 7 - st.availBits
    { digits := st.digits ++ [(st.w <<< st.availBits) ||| (b >>> excessBits).setWidth 32]
      w := b.setWidth 32 &&& ((1#32 <<< excessBits) - 1#32)
      availBits := 32 - excessBits }

/-- The digits of the first byte's value and the further groups. -/
def packDigits (b : Byte) (groups : List Byte) : List (BitVec 32) :=
  let nbits := groups.length * 7 + firstBits b
  if 0 < nbits then
    let st := groups.foldl packStep (packInit b nbits)
    st.digits ++ [st.w]
  else []

/-- The stream constructor of `integer`, called by `read_integer`. -/
def readInteger : Reader Integer := do
  let b ← getb
  let is ← get
  let groups ← readGroups (is.bytes.length + 2) b
  pure ⟨b &&& 0x40 ≠ 0, packDigits (b &&& 0x3f) groups⟩

/-- The body that the readers of marked options share. -/
def readMarked {T : Type} (read : Reader T) (tyName : String) : Reader (Option T) := do
  let tag ← readTag8
  match tag with
  | 0 => pure none
  | 1 => do
      let v ← read
      pure (some v)
  | tag => invalidTag tag tyName

/-- `read_integer_option`. -/
def readIntegerOption : Reader (Option Integer) := readMarked readInteger "integer?"

/-! ### The documented encoding -/

/-- The groups of a number, most significant first: six bits in the first
and seven in each further one, and no more groups than the number needs. -/
def integerGroups (n : Nat) : List Nat :=
  if n < 64 then [n] else integerGroups (n / 128) ++ [n % 128]
decreasing_by omega

/-- Put the continuation bit on every group but the last. -/
def continued : List Nat → List Byte
  | [] => []
  | g :: gs => BitVec.ofNat 8 (if gs.isEmpty then g else 0x80 + g) :: continued gs

/-- The encoding of an integer: the groups of its magnitude with the
continuation bits, and the sign in the first byte's bit `0x40`. -/
def integerBytes (i : Int) : List Byte :=
  match integerGroups i.natAbs with
  | [] => []
  | g :: gs => continued ((if i < 0 then 0x40 + g else g) :: gs)

/-! ### The repacking loop

The loop invariant is `Packed`: the finished digits and the current one hold
the value read so far, and the bits read so far end where the current digit
does. At the end no bit of the current digit is missing. -/

open Integer

/-- The number whose base-128 digits are `acc` and then the groups. -/
def groupsVal (acc : Nat) (groups : List Byte) : Nat :=
  groups.foldl (fun acc g => acc * 128 + g.toNat) acc

/-- The number of significant bits bounds the first byte's value on both sides. -/
theorem firstBits_spec {b : Byte} (h : b.toNat < 64) :
    b.toNat < 2 ^ firstBits b ∧ firstBits b ≤ 6 ∧
      (b.toNat = 0 ∧ firstBits b = 0 ∨ 2 ^ firstBits b ≤ 2 * b.toNat) := by
  unfold firstBits
  simp only [gt_iff_lt, BitVec.lt_def, BitVec.toNat_ofNat]
  simp only [Nat.reducePow, Nat.reduceMod]
  repeat' split
  all_goals omega

/-- Shifting and or-ing puts a short number under a longer one. -/
theorem toNat_shiftLeft_or {w x : BitVec 32} {k : Nat} (hk : k ≤ 32)
    (hw : w.toNat < 2 ^ (32 - k)) (hx : x.toNat < 2 ^ k) :
    ((w <<< k) ||| x).toNat = w.toNat * 2 ^ k + x.toNat := by
  have hshift : (w <<< k).toNat = w.toNat * 2 ^ k := by
    rw [BitVec.toNat_shiftLeft, Nat.shiftLeft_eq]
    apply Nat.mod_eq_of_lt
    calc w.toNat * 2 ^ k < 2 ^ (32 - k) * 2 ^ k :=
          Nat.mul_lt_mul_of_pos_right hw (Nat.two_pow_pos k)
      _ = 2 ^ 32 := by rw [← Nat.pow_add, Nat.sub_add_cancel hk]
  rw [toNat_or_of_lt k (by rw [hshift]; exact Nat.mul_mod_left _ _) hx, hshift]

/-- Masking with `(1 << k) - 1` keeps the low `k` bits. -/
theorem toNat_and_mask (x : BitVec 32) {k : Nat} (hk : k < 32) :
    (x &&& ((1#32 <<< k) - 1#32)).toNat = x.toNat % 2 ^ k := by
  have hone : ((1#32 <<< k) - 1#32).toNat = 2 ^ k - 1 := by
    have hpow : 2 ^ k < 2 ^ 32 := Nat.pow_lt_pow_right (by decide) hk
    have hpos := Nat.two_pow_pos k
    have hsh : (1#32 <<< k).toNat = 2 ^ k := by
      rw [BitVec.toNat_shiftLeft, Nat.shiftLeft_eq, BitVec.toNat_ofNat]
      simp only [Nat.one_mod, Nat.reducePow, Nat.one_mul] at *
      exact Nat.mod_eq_of_lt hpow
    rw [BitVec.toNat_sub, hsh, BitVec.toNat_ofNat]
    omega
  rw [BitVec.toNat_and, hone, Nat.and_two_pow_sub_one_eq_mod]

/-- A further digit. -/
theorem digitsVal_append (ds : List (BitVec 32)) (d : BitVec 32) :
    digitsVal (ds ++ [d]) = digitsVal ds * 2 ^ 32 + d.toNat := by
  rw [digitsVal, List.foldl_append]
  rfl

/-- What the repacking loop keeps: `st` holds the value `V` of the `nb` bits
read so far, `off` bits to the right of a digit boundary. -/
structure Packed (off nb V : Nat) (st : Pack) : Prop where
  availBits_le : st.availBits ≤ 32
  w_lt : st.w.toNat < 2 ^ (32 - st.availBits)
  val_eq : digitsVal st.digits * 2 ^ (32 - st.availBits) + st.w.toNat = V
  length_eq : 32 * st.digits.length + (32 - st.availBits) = off + nb
  started : nb = 0 ∨ st.availBits < 32

/-- The bits missing on the left of the first digit. -/
def padding (nbits : Nat) : Nat := if nbits % 32 = 0 then 0 else 32 - nbits % 32

/-- The initial state holds the first byte's bits. -/
theorem packed_packInit {b : Byte} (hb : b.toNat < 64) (nbits : Nat) :
    Packed (padding nbits) (firstBits b) b.toNat (packInit b nbits) := by
  obtain ⟨hlt, hle, -⟩ := firstBits_spec hb
  have hw : (b.setWidth 32).toNat = b.toNat := by
    rw [BitVec.toNat_setWidth, Nat.mod_eq_of_lt (by omega)]
  unfold packInit padding
  dsimp only
  generalize hA : (if nbits % 32 = 0 then 32 else nbits % 32) = A
  have hA' : A ≤ 32 ∧ (if nbits % 32 = 0 then 0 else 32 - nbits % 32) = 32 - A := by
    split at hA <;> split <;> omega
  obtain ⟨hA32, hpad⟩ := hA'
  have hA0 : 0 < A := by split at hA <;> omega
  rw [hpad]
  split
  next h =>
    -- The high bits of the first byte end the first digit.
    have hk : firstBits b - A < 32 := by omega
    have hcut : b.toNat / 2 ^ (firstBits b - A) < 2 ^ 32 :=
      Nat.lt_of_le_of_lt (Nat.div_le_self _ _) (by omega)
    refine ⟨?_, ?_, ?_, ?_, ?_⟩
    · dsimp only; omega
    · dsimp only
      rw [toNat_and_mask _ hk, show 32 - (32 - (firstBits b - A)) = firstBits b - A by omega]
      exact Nat.mod_lt _ (Nat.two_pow_pos _)
    · dsimp only
      rw [toNat_and_mask _ hk, show 32 - (32 - (firstBits b - A)) = firstBits b - A by omega, hw]
      show (0 * 2 ^ 32 + (b.setWidth 32 >>> (firstBits b - A)).toNat) * _ + _ = _
      rw [BitVec.toNat_ushiftRight, Nat.shiftRight_eq_div_pow, hw, Nat.zero_mul, Nat.zero_add]
      exact Nat.div_add_mod' _ _
    · dsimp only
      simp only [List.length_singleton]; omega
    · dsimp only; omega
  next h =>
    refine ⟨?_, ?_, ?_, ?_, ?_⟩
    · dsimp only; omega
    · dsimp only
      rw [hw]
      exact Nat.lt_of_lt_of_le hlt (Nat.pow_le_pow_right (by decide) (by omega))
    · dsimp only
      rw [hw]
      show 0 * _ + _ = _
      omega
    · dsimp only
      simp only [List.length_nil]; omega
    · dsimp only; omega

/-- One round appends the seven bits of a group. -/
theorem packed_packStep {off nb V : Nat} {st : Pack} (h : Packed off nb V st) {g : Byte}
    (hg : g.toNat < 128) : Packed off (nb + 7) (V * 128 + g.toNat) (packStep st g) := by
  have hgw : (g.setWidth 32).toNat = g.toNat := by
    rw [BitVec.toNat_setWidth, Nat.mod_eq_of_lt (by omega)]
  obtain ⟨hle, hlt, hval, hlen, -⟩ := h
  unfold packStep
  split
  next h7 =>
    have hw : ((st.w <<< 7) ||| g.setWidth 32).toNat = st.w.toNat * 2 ^ 7 + g.toNat := by
      rw [toNat_shiftLeft_or (by decide) _ (by omega), hgw]
      exact Nat.lt_of_lt_of_le hlt (Nat.pow_le_pow_right (by decide) (by omega))
    have hpow : 2 ^ (32 - (st.availBits - 7)) = 2 ^ (32 - st.availBits) * 2 ^ 7 := by
      rw [← Nat.pow_add]; congr 1; omega
    refine ⟨?_, ?_, ?_, ?_, ?_⟩
    · dsimp only; omega
    · dsimp only
      rw [hw, hpow]; omega
    · dsimp only
      rw [hw, hpow, ← hval]; ring
    · dsimp only; omega
    · dsimp only; omega
  next h7 =>
    have he : 7 - st.availBits < 32 := by omega
    have hhi : ((g >>> (7 - st.availBits)).setWidth 32).toNat
        = g.toNat / 2 ^ (7 - st.availBits) := by
      rw [BitVec.toNat_setWidth, BitVec.toNat_ushiftRight, Nat.shiftRight_eq_div_pow]
      exact Nat.mod_eq_of_lt (Nat.lt_of_le_of_lt (Nat.div_le_self _ _) (by omega))
    have hpow7 : 2 ^ (7 - st.availBits) * 2 ^ st.availBits = 128 := by
      rw [← Nat.pow_add, Nat.sub_add_cancel (by omega)]
    have hd : ((st.w <<< st.availBits) ||| (g >>> (7 - st.availBits)).setWidth 32).toNat
        = st.w.toNat * 2 ^ st.availBits + g.toNat / 2 ^ (7 - st.availBits) := by
      rw [toNat_shiftLeft_or (by omega) hlt _, hhi]
      rw [hhi]
      exact Nat.div_lt_of_lt_mul (by omega)
    have hback : 32 - (32 - (7 - st.availBits)) = 7 - st.availBits := by omega
    refine ⟨?_, ?_, ?_, ?_, ?_⟩
    · dsimp only; omega
    · dsimp only
      rw [toNat_and_mask _ he, hback]
      exact Nat.mod_lt _ (Nat.two_pow_pos _)
    · dsimp only
      rw [toNat_and_mask _ he, hback, digitsVal_append, hd, hgw]
      have hpow : 2 ^ (32 - st.availBits) * 2 ^ st.availBits = 2 ^ 32 := by
        rw [← Nat.pow_add, Nat.sub_add_cancel hle]
      have hdm := Nat.div_add_mod g.toNat (2 ^ (7 - st.availBits))
      rw [← hval, ← hpow]
      calc _ = (digitsVal st.digits * 2 ^ (32 - st.availBits) + st.w.toNat)
              * (2 ^ (7 - st.availBits) * 2 ^ st.availBits)
            + (2 ^ (7 - st.availBits) * (g.toNat / 2 ^ (7 - st.availBits))
              + g.toNat % 2 ^ (7 - st.availBits)) := by ring
        _ = _ := by rw [hpow7, hdm]
    · dsimp only
      simp only [List.length_append, List.length_singleton]; omega
    · dsimp only; omega

/-- A whole run of the loop. -/
theorem packed_foldl {groups : List Byte} (hg : ∀ g ∈ groups, g.toNat < 128) :
    ∀ {off nb V : Nat} {st : Pack}, Packed off nb V st →
      Packed off (nb + groups.length * 7) (groupsVal V groups) (groups.foldl packStep st) := by
  induction groups with
  | nil => intro off nb V st h; exact h
  | cons g groups ih =>
      intro off nb V st h
      have hstep := packed_packStep h (hg g List.mem_cons_self)
      have hrun := ih (fun x hx => hg x (List.mem_cons_of_mem g hx)) hstep
      rwa [show nb + 7 + groups.length * 7 = nb + (groups.length + 1) * 7 by omega] at hrun

/-- The loop computes exactly the value of the groups, in the least number of
digits that can hold all of the bits. -/
theorem packDigits_spec {b : Byte} {groups : List Byte} (hb : b.toNat < 64)
    (hg : ∀ g ∈ groups, g.toNat < 128) :
    digitsVal (packDigits b groups) = groupsVal b.toNat groups ∧
      (packDigits b groups).length = (groups.length * 7 + firstBits b + 31) / 32 := by
  unfold packDigits
  dsimp only
  split
  next hpos =>
    obtain ⟨hle, hlt, hval, hlen, hstart⟩ :=
      packed_foldl hg (packed_packInit hb (groups.length * 7 + firstBits b))
    generalize groups.foldl packStep (packInit b (groups.length * 7 + firstBits b)) = st at *
    have hoff : padding (groups.length * 7 + firstBits b) + (groups.length * 7 + firstBits b)
        = 32 * ((groups.length * 7 + firstBits b + 31) / 32) := by
      unfold padding; split <;> omega
    have h0 : st.availBits = 0 := by omega
    rw [h0] at hval hlen
    refine ⟨by rw [digitsVal_append]; exact hval, ?_⟩
    rw [List.length_append, List.length_singleton]
    omega
  next hpos =>
    have hfb : firstBits b = 0 := by omega
    have hnil : groups = [] := List.length_eq_zero_iff.mp (by omega)
    obtain ⟨hlt, -, -⟩ := firstBits_spec hb
    rw [hfb] at hlt
    subst hnil
    refine ⟨?_, by rw [hfb]; rfl⟩
    show 0 = b.toNat
    omega

/-! ### The shortest digits -/

/-- Big-endian digits are the reversed digit list of Mathlib. -/
theorem digitsVal_eq_ofDigits (ds : List (BitVec 32)) :
    digitsVal ds = Nat.ofDigits (2 ^ 32) (ds.map BitVec.toNat).reverse := by
  induction ds using List.reverseRecOn with
  | nil => rfl
  | append_singleton ds d ih =>
      rw [digitsVal_append, ih, List.map_append, List.reverse_append]
      show _ = Nat.ofDigits (2 ^ 32) (d.toNat :: (ds.map BitVec.toNat).reverse)
      rw [Nat.ofDigits_cons, Nat.mul_comm, Nat.add_comm]

/-- A value of `n` digits. -/
theorem digitsVal_lt (ds : List (BitVec 32)) : digitsVal ds < 2 ^ (32 * ds.length) := by
  rw [digitsVal_eq_ofDigits]
  have h := Nat.ofDigits_lt_base_pow_length (b := 2 ^ 32) (l := (ds.map BitVec.toNat).reverse)
    (by decide) (fun x hx => by
      obtain ⟨d, -, rfl⟩ := List.mem_map.mp (List.mem_reverse.mp hx)
      exact d.isLt)
  rwa [List.length_reverse, List.length_map, ← Nat.pow_mul] at h

/-- A zero leading digit leaves its position unused. -/
theorem digitsVal_cons_lt {d : BitVec 32} (hd : d.toNat = 0) (ds : List (BitVec 32)) :
    digitsVal (d :: ds) < 2 ^ (32 * ds.length) := by
  have hval : digitsVal (d :: ds) = digitsVal ds := by
    show List.foldl _ (0 * 2 ^ 32 + d.toNat) ds = _
    rw [hd]
    rfl
  rw [hval]
  exact digitsVal_lt ds

/-- Digits that need all their positions are the shortest digits of their value. -/
theorem toDigits_digitsVal {ds : List (BitVec 32)}
    (h : ds = [] ∨ 2 ^ (32 * (ds.length - 1)) ≤ digitsVal ds) : toDigits (digitsVal ds) = ds := by
  cases ds with
  | nil => decide
  | cons d ds =>
      have hmin : 2 ^ (32 * ds.length) ≤ digitsVal (d :: ds) := by
        cases h with
        | inl h => exact absurd h (by simp)
        | inr h => simpa using h
      have hdig : Nat.digits (2 ^ 32) (digitsVal (d :: ds))
          = ((d :: ds).map BitVec.toNat).reverse := by
        rw [digitsVal_eq_ofDigits]
        refine Nat.digits_ofDigits _ (by decide) _ ?_ ?_
        · intro x hx
          obtain ⟨e, -, rfl⟩ := List.mem_map.mp (List.mem_reverse.mp hx)
          exact e.isLt
        · intro hne hz
          -- A zero leading digit would leave the value below the bound.
          have hd : d.toNat = 0 := by simpa using hz
          have hlt := digitsVal_cons_lt hd ds
          omega
      rw [toDigits, hdig, List.map_reverse, List.reverse_reverse, List.map_map]
      have hid : (BitVec.ofNat 32) ∘ BitVec.toNat = id := by
        funext x; exact (BitVec.ofNat_toNat ..).trans (BitVec.setWidth_eq x)
      rw [hid, List.map_id]

/-- The groups that follow shift the value they are appended to. -/
theorem mul_pow_le_groupsVal (acc : Nat) (groups : List Byte) :
    acc * 2 ^ (groups.length * 7) ≤ groupsVal acc groups := by
  induction groups generalizing acc with
  | nil => simp [groupsVal]
  | cons g groups ih =>
      refine Nat.le_trans ?_ (ih (acc * 128 + g.toNat))
      rw [List.length_cons, Nat.add_mul, Nat.pow_add, Nat.mul_comm (2 ^ _), ← Nat.mul_assoc]
      exact Nat.mul_le_mul_right _ (by omega)

/-- The bits of the groups are as many as the value needs. -/
theorem pow_nbits_le {g : Byte} {gs : List Byte} (hg : g.toNat < 64)
    (hmin : gs = [] ∨ 2 ^ (gs.length * 7) ≤ 2 * groupsVal g.toNat gs) :
    gs.length * 7 + firstBits g = 0 ∨
      2 ^ (gs.length * 7 + firstBits g) ≤ 2 * groupsVal g.toNat gs := by
  obtain ⟨-, -, hfb⟩ := firstBits_spec hg
  cases hfb with
  | inl h =>
      cases hmin with
      | inl hnil => exact .inl (by rw [hnil, h.2]; rfl)
      | inr hmin => exact .inr (by rw [h.2]; exact hmin)
  | inr h =>
      refine .inr ?_
      rw [Nat.pow_add]
      calc 2 ^ (gs.length * 7) * 2 ^ firstBits g
          ≤ 2 ^ (gs.length * 7) * (2 * g.toNat) := Nat.mul_le_mul_left _ h
        _ = 2 * (g.toNat * 2 ^ (gs.length * 7)) := by ring
        _ ≤ 2 * groupsVal g.toNat gs := Nat.mul_le_mul_left _ (mul_pow_le_groupsVal _ gs)

/-- Groups with no bit too many are repacked into the shortest digits. -/
theorem packDigits_eq {g : Byte} {gs : List Byte} (hg : g.toNat < 64)
    (hgs : ∀ x ∈ gs, x.toNat < 128)
    (hmin : gs = [] ∨ 2 ^ (gs.length * 7) ≤ 2 * groupsVal g.toNat gs) :
    packDigits g gs = toDigits (groupsVal g.toNat gs) := by
  obtain ⟨hval, hlen⟩ := packDigits_spec hg hgs
  rw [← hval]
  refine (toDigits_digitsVal ?_).symm
  cases pow_nbits_le hg hmin with
  | inl h0 => exact .inl (List.length_eq_zero_iff.mp (by rw [hlen, h0]))
  | inr h =>
      refine .inr ?_
      rw [hval]
      have hle : 32 * ((packDigits g gs).length - 1) + 1 ≤ gs.length * 7 + firstBits g ∨
          32 * ((packDigits g gs).length - 1) = 0 := by omega
      cases hle with
      | inl hle =>
          have hp := Nat.pow_le_pow_right (n := 2) (by decide) hle
          rw [Nat.pow_succ] at hp
          omega
      | inr hz =>
          rw [hz]
          have := Nat.two_pow_pos (gs.length * 7 + firstBits g)
          omega

/-! ### The round trip -/

/-- The collecting loop reads the groups that follow a first byte which
announces them. -/
theorem decodes_readGroups {gs : List Nat} (hgs : ∀ g ∈ gs, g < 128) {b : Byte} {fuel : Nat}
    (hb : b.toNat / 128 = if gs.isEmpty then 0 else 1) (hfuel : gs.length < fuel) :
    Decodes place (readGroups fuel b) (continued gs) (gs.map (BitVec.ofNat 8)) := by
  induction gs generalizing b fuel with
  | nil =>
      obtain ⟨fuel, rfl⟩ : ∃ f, fuel = f + 1 := ⟨fuel - 1, by simp at hfuel; omega⟩
      have hnot : ¬ b &&& 0x80 ≠ 0 := fun hc => by
        have := (and_ne_zero_iff 7 rfl).mp hc
        simp at hb; omega
      rw [readGroups, if_neg hnot]
      exact Decodes.pure _
  | cons g gs ih =>
      obtain ⟨fuel, rfl⟩ : ∃ f, fuel = f + 1 := ⟨fuel - 1, by simp at hfuel; omega⟩
      have hg : g < 128 := hgs g List.mem_cons_self
      have hset : b &&& 0x80 ≠ 0 := by
        rw [and_ne_zero_iff 7 rfl]
        simp at hb; omega
      have hc : (BitVec.ofNat 8 (if gs.isEmpty then g else 0x80 + g)).toNat
          = if gs.isEmpty then g else 0x80 + g := by
        rw [BitVec.toNat_ofNat]
        split <;> omega
      have hlow : BitVec.ofNat 8 (if gs.isEmpty then g else 0x80 + g) &&& 0x7f
          = BitVec.ofNat 8 g := by
        apply BitVec.eq_of_toNat_eq
        rw [toNat_and_low 7 rfl, hc, BitVec.toNat_ofNat]
        split <;> omega
      have htail : Decodes place
          (readGroups fuel (BitVec.ofNat 8 (if gs.isEmpty then g else 0x80 + g))) _ _ :=
        ih (fun x hx => hgs x (List.mem_cons_of_mem g hx))
        (by rw [hc]; split <;> omega) (by simp at hfuel; omega)
      rw [readGroups, if_pos hset, List.map_cons, ← hlow]
      refine (decodes_getb _).cons ?_
      exact htail.bind_pure

/-- The groups of a number: it has the value of the groups, the first group
fits six bits, and there is no group too many. -/
theorem integerGroups_spec (n : Nat) :
    ∃ g gs, integerGroups n = g :: gs ∧ g < 64 ∧ (∀ x ∈ gs, x < 128) ∧
      gs.foldl (fun acc x => acc * 128 + x) g = n ∧
      (gs = [] ∨ 2 ^ (gs.length * 7) ≤ 2 * n) := by
  induction n using Nat.strongRecOn with
  | ind n ih =>
      unfold integerGroups
      split
      next h => exact ⟨n, [], rfl, h, by simp, rfl, .inl rfl⟩
      next h =>
        obtain ⟨g, gs, heq, hg, hgs, hval, hmin⟩ := ih (n / 128) (by omega)
        refine ⟨g, gs ++ [n % 128], by rw [heq]; rfl, hg, ?_, ?_, .inr ?_⟩
        · intro x hx
          cases List.mem_append.mp hx with
          | inl hx => exact hgs x hx
          | inr hx => rw [List.mem_singleton.mp hx]; omega
        · rw [List.foldl_append, hval]
          show n / 128 * 128 + n % 128 = n
          omega
        · rw [List.length_append, List.length_singleton, Nat.add_mul, Nat.pow_add]
          cases hmin with
          | inl hnil => rw [hnil]; simp; omega
          | inr hmin => omega

/-- An integer in the documented encoding is read back in its shortest
representation. -/
theorem decodes_readInteger (i : Int) :
    Decodes place readInteger (integerBytes i) (Integer.ofInt i) := by
  obtain ⟨g, gs, heq, hg, hgs, hval, hmin⟩ := integerGroups_spec i.natAbs
  -- The first byte: the continuation bit, the sign and six bits of value.
  generalize hs : (if i < 0 then 0x40 + g else g) = s
  have hb : (BitVec.ofNat 8 (if gs.isEmpty then s else 0x80 + s)).toNat
      = if gs.isEmpty then s else 0x80 + s := by
    rw [BitVec.toNat_ofNat]
    split at hs <;> split <;> omega
  generalize hbyte : BitVec.ofNat 8 (if gs.isEmpty then s else 0x80 + s) = b at hb
  have hgroup : (b &&& 0x3f).toNat = g := by
    rw [toNat_and_low 6 rfl, hb]
    split at hs <;> split <;> omega
  have hneg : (b &&& 0x40 ≠ 0) ↔ i < 0 := by
    rw [and_ne_zero_iff 6 rfl, hb]
    split at hs <;> split <;> omega
  have hcont : b.toNat / 128 = if gs.isEmpty then 0 else 1 := by
    rw [hb]
    split at hs <;> split <;> omega
  have hgroups : groupsVal g (gs.map (BitVec.ofNat 8)) = i.natAbs := by
    rw [← hval, groupsVal, List.foldl_map]
    refine List.foldl_ext _ _ _ fun acc x hx => ?_
    rw [BitVec.toNat_ofNat, Nat.mod_eq_of_lt (Nat.lt_trans (hgs x hx) (by decide))]
  have hdig : packDigits (b &&& 0x3f) (gs.map (BitVec.ofNat 8)) = toDigits i.natAbs := by
    rw [packDigits_eq (by omega) ?_ ?_, hgroup, hgroups]
    · intro x hx
      obtain ⟨y, hy, rfl⟩ := List.mem_map.mp hx
      have := hgs y hy
      rw [BitVec.toNat_ofNat]; omega
    · rw [hgroup, hgroups, List.length_map]
      exact hmin.imp (fun h => by rw [h]; rfl) id
  have hres : Integer.ofInt i
      = ⟨b &&& 0x40 ≠ 0, packDigits (b &&& 0x3f) (gs.map (BitVec.ofNat 8))⟩ := by
    rw [hdig, Integer.ofInt]
    simp only [hneg]
  have hbytes : integerBytes i = b :: continued gs := by
    rw [← hbyte, ← hs, integerBytes, heq]
    rfl
  rw [hbytes, hres]
  refine (decodes_getb b).cons (Decodes.get_bind fun tl => ?_)
  have hlen : gs.length < (continued gs ++ tl).length + 2 := by
    have hc : (continued gs).length = gs.length := by
      clear * -
      induction gs with
      | nil => rfl
      | cons g gs ih => rw [continued, List.length_cons, List.length_cons, ih]
    rw [List.length_append, hc]
    omega
  exact (decodes_readGroups hgs hcont hlen).bind_pure tl

/-! ### Decoding any bytes -/

/-- The bytes `b` and `bs` form one integer: all but the last have the
continuation bit. -/
def Continues (b : Byte) (bs : List Byte) : Prop :=
  (∀ x ∈ (b :: bs).dropLast, x &&& 0x80 ≠ 0) ∧
    (b :: bs).getLast (List.cons_ne_nil b bs) &&& 0x80 = 0

instance (b : Byte) (bs : List Byte) : Decidable (Continues b bs) :=
  inferInstanceAs (Decidable (_ ∧ _))

/-- The number that the bytes `b` and `bs` denote: six bits of the first and
seven of each further one. -/
def bytesVal (b : Byte) (bs : List Byte) : Nat :=
  (b &&& 0x3f).toNat * 128 ^ bs.length
    + ∑ i : Fin bs.length, (bs[i] &&& 0x7f).toNat * 128 ^ (bs.length - 1 - i)

/-- The shift amounts of `packInit`. -/
def initShifts (b : Byte) (nbits : Nat) : List Nat :=
  let availBits := if nbits % 32 = 0 then 32 else nbits % 32
  if availBits < firstBits b then [firstBits b - availBits] else []

/-- The shift amounts of `packStep`. -/
def stepShifts (st : Pack) : List Nat :=
  if 7 ≤ st.availBits then [7] else [st.availBits, 7 - st.availBits]

/-- The collecting loop reads exactly the bytes of an integer. -/
theorem decodes_readGroups_of_continues {b : Byte} {bs : List Byte} (h : Continues b bs)
    {fuel : Nat} (hfuel : bs.length < fuel) :
    Decodes place (readGroups fuel b) bs (bs.map (· &&& 0x7f)) := by
  induction bs generalizing b fuel with
  | nil =>
      obtain ⟨fuel, rfl⟩ : ∃ f, fuel = f + 1 := ⟨fuel - 1, by simp at hfuel; omega⟩
      have hlast : b &&& 0x80 = 0 := h.2
      rw [readGroups, if_neg (not_not.mpr hlast)]
      exact Decodes.pure _
  | cons x bs ih =>
      obtain ⟨fuel, rfl⟩ : ∃ f, fuel = f + 1 := ⟨fuel - 1, by simp at hfuel; omega⟩
      obtain ⟨hcont, hlast⟩ := h
      rw [List.dropLast_cons_of_ne_nil (List.cons_ne_nil x bs)] at hcont
      rw [readGroups, if_pos (hcont b List.mem_cons_self), List.map_cons]
      have htail : Decodes place (readGroups fuel x) bs (bs.map (· &&& 0x7f)) := by
        refine ih ⟨fun y hy => hcont y (List.mem_cons_of_mem b hy), ?_⟩ (by simpa using hfuel)
        rwa [List.getLast_cons (List.cons_ne_nil x bs)] at hlast
      exact (decodes_getb x).cons htail.bind_pure

/-- The value bits of the first byte. -/
theorem toNat_first_lt (b : Byte) : (b &&& 0x3f).toNat < 64 := by
  rw [toNat_and_low 6 rfl]
  omega

/-- The value bits of a further byte. -/
theorem toNat_groups_lt (bs : List Byte) : ∀ g ∈ bs.map (· &&& 0x7f), g.toNat < 128 := by
  intro g hg
  obtain ⟨x, -, rfl⟩ := List.mem_map.mp hg
  rw [toNat_and_low 7 rfl]
  omega

/-- What the stream constructor makes of the bytes of an integer. -/
theorem decodes_readInteger_of_continues {b : Byte} {bs : List Byte} (h : Continues b bs) :
    Decodes place readInteger (b :: bs)
      ⟨b &&& 0x40 ≠ 0, packDigits (b &&& 0x3f) (bs.map (· &&& 0x7f))⟩ := by
  refine (decodes_getb b).cons (Decodes.get_bind fun tl => ?_)
  have hlen : bs.length < (bs ++ tl).length + 2 := by
    rw [List.length_append]
    omega
  exact (decodes_readGroups_of_continues h hlen).bind_pure tl

/-- The value of the groups as a sum. -/
theorem groupsVal_eq_sum (acc : Nat) (bs : List Byte) :
    groupsVal acc (bs.map (· &&& 0x7f)) = acc * 128 ^ bs.length
      + ∑ i : Fin bs.length, (bs[i] &&& 0x7f).toNat * 128 ^ (bs.length - 1 - i) := by
  induction bs generalizing acc with
  | nil => simp [groupsVal]
  | cons b bs ih =>
      have hstep : groupsVal acc ((b :: bs).map (· &&& 0x7f))
          = groupsVal (acc * 128 + (b &&& 0x7f).toNat) (bs.map (· &&& 0x7f)) := rfl
      have hsum : ∑ i : Fin (b :: bs).length,
            ((b :: bs)[i] &&& 0x7f).toNat * 128 ^ ((b :: bs).length - 1 - i)
          = (b &&& 0x7f).toNat * 128 ^ bs.length
            + ∑ i : Fin bs.length, (bs[i] &&& 0x7f).toNat * 128 ^ (bs.length - 1 - i) := by
        refine (Fin.sum_univ_succ (n := bs.length) _).trans ?_
        refine congrArg₂ (· + ·) rfl (Finset.sum_congr rfl fun i _ => ?_)
        show (bs[i] &&& 0x7f).toNat * 128 ^ (bs.length + 1 - 1 - (i + 1)) = _
        rw [Nat.add_sub_cancel, Nat.sub_sub, Nat.add_comm 1]
      rw [hstep, ih, hsum, List.length_cons, Nat.pow_succ]
      ring

/-- The groups of `n` further bytes take at most `7 * n` bits. -/
theorem groupsVal_lt (acc : Nat) {groups : List Byte} (hg : ∀ g ∈ groups, g.toNat < 128) :
    groupsVal acc groups < (acc + 1) * 2 ^ (groups.length * 7) := by
  induction groups generalizing acc with
  | nil => simp [groupsVal]
  | cons g groups ih =>
      have hlt := hg g List.mem_cons_self
      refine Nat.lt_of_lt_of_le
        (ih (acc * 128 + g.toNat) fun x hx => hg x (List.mem_cons_of_mem g hx)) ?_
      rw [List.length_cons, Nat.succ_mul groups.length, Nat.pow_add, Nat.mul_comm (2 ^ _),
        ← Nat.mul_assoc]
      exact Nat.mul_le_mul_right _ (by omega)

/-- Groups with no bit too many have as many bits as their value. -/
theorem size_groupsVal_of_le {b : Byte} {groups : List Byte} (hb : b.toNat < 64)
    (hg : ∀ g ∈ groups, g.toNat < 128)
    (hmin : groups = [] ∨ 2 ^ (groups.length * 7) ≤ 2 * groupsVal b.toNat groups) :
    Nat.size (groupsVal b.toNat groups) = groups.length * 7 + firstBits b := by
  obtain ⟨hlt, -, hfb⟩ := firstBits_spec hb
  apply Nat.le_antisymm
  · rw [Nat.size_le]
    refine Nat.lt_of_lt_of_le (groupsVal_lt b.toNat hg) ?_
    rw [Nat.pow_add, Nat.mul_comm]
    exact Nat.mul_le_mul_left _ hlt
  · cases pow_nbits_le hb hmin with
    | inl h0 => omega
    | inr hle =>
        have hpos := Nat.two_pow_pos (groups.length * 7 + firstBits b)
        rcases Nat.eq_zero_or_pos (groups.length * 7 + firstBits b) with h0 | h0
        · omega
        · obtain ⟨m, hm⟩ := Nat.exists_eq_add_of_lt h0
          rw [Nat.zero_add] at hm
          rw [hm] at hle ⊢
          refine Nat.lt_size.mpr ?_
          rw [Nat.pow_succ] at hle
          omega

/-- If the first byte is not zero, the groups have as many bits as their value. -/
theorem size_groupsVal {b : Byte} {groups : List Byte} (hb : b.toNat < 64)
    (hg : ∀ g ∈ groups, g.toNat < 128) (hz : b.toNat ≠ 0 ∨ groups = []) :
    Nat.size (groupsVal b.toNat groups) = groups.length * 7 + firstBits b := by
  refine size_groupsVal_of_le hb hg ?_
  cases hz with
  | inl hz =>
      have hle := mul_pow_le_groupsVal b.toNat groups
      have hone := Nat.mul_le_mul_right (2 ^ (groups.length * 7)) (Nat.pos_of_ne_zero hz)
      exact .inr (by omega)
  | inr hz => exact .inl hz

/-- Digits that are no more than the value needs start with a digit that is not
zero. -/
theorem head?_ne_zero {ds : List (BitVec 32)}
    (h : ds.length = (Nat.size (digitsVal ds) + 31) / 32) : ds.head? ≠ some 0 := by
  cases ds with
  | nil => exact nofun
  | cons d ds =>
      intro hd
      have hd0 : d = 0 := by simpa using hd
      have hlt := digitsVal_cons_lt (d := d) (by rw [hd0]; rfl) ds
      have hsize := Nat.size_le.mpr hlt
      rw [List.length_cons] at h
      omega

/-- Reading the bytes `b` and `bs` of an integer: the sign is the bit `0x40` of
the first byte, and the digits denote `bytesVal b bs`. Where the first byte
has a value bit, or is the only one, there are no more digits than the value
needs. The repacking loop keeps the bits read so far, and no shift amount
reaches the width of a digit. -/
theorem readInteger_exact {b : Byte} {bs : List Byte} (h : Continues b bs) (tl : List Byte) :
    ∃ n : Integer, readInteger.run (place (b :: bs ++ tl)) = .ok (n, place tl) ∧
      n.sign = (b &&& 0x40 ≠ 0) ∧
      digitsVal n.digits = bytesVal b bs ∧
      (b &&& 0x3f ≠ 0 ∨ bs = [] →
        n.digits.length = (Nat.size (bytesVal b bs) + 31) / 32 ∧ n.digits.head? ≠ some 0) ∧
      (∀ k ∈ initShifts (b &&& 0x3f) (bs.length * 7 + firstBits (b &&& 0x3f)), k < 31) ∧
      ∀ pre, pre <+: bs.map (· &&& 0x7f) →
        let st := pre.foldl packStep
          (packInit (b &&& 0x3f) (bs.length * 7 + firstBits (b &&& 0x3f)))
        st.w.toNat < 2 ^ (32 - st.availBits) ∧
          digitsVal st.digits * 2 ^ (32 - st.availBits) + st.w.toNat
            = groupsVal (b &&& 0x3f).toNat pre ∧
          ∀ k ∈ stepShifts st, k < 31 := by
  have hb := toNat_first_lt b
  have hg := toNat_groups_lt bs
  have hval : groupsVal (b &&& 0x3f).toNat (bs.map (· &&& 0x7f)) = bytesVal b bs :=
    groupsVal_eq_sum _ _
  obtain ⟨hdig, hlen⟩ := packDigits_spec hb hg
  have hshort : b &&& 0x3f ≠ 0 ∨ bs = [] →
      (packDigits (b &&& 0x3f) (bs.map (· &&& 0x7f))).length
        = (Nat.size (bytesVal b bs) + 31) / 32 := by
    intro hz
    rw [hlen, ← hval, size_groupsVal hb hg]
    exact hz.imp (fun hz h0 => hz (BitVec.eq_of_toNat_eq h0)) (fun hz => by rw [hz]; rfl)
  refine ⟨⟨b &&& 0x40 ≠ 0, packDigits (b &&& 0x3f) (bs.map (· &&& 0x7f))⟩, ?_, by simp,
    hdig.trans hval, fun hz => ⟨hshort hz, head?_ne_zero ?_⟩, ?_, ?_⟩
  · exact decodes_readInteger_of_continues h tl
  · rw [hdig, hval]
    exact hshort hz
  · intro k hk
    have hfb := (firstBits_spec hb).2.1
    unfold initShifts at hk
    dsimp only at hk
    generalize (if (bs.length * 7 + firstBits (b &&& 0x3f)) % 32 = 0 then 32
      else (bs.length * 7 + firstBits (b &&& 0x3f)) % 32) = availBits at hk
    split at hk
    · rw [List.mem_singleton.mp hk]
      omega
    · cases hk
  · intro pre hpre
    have hp := packed_foldl (fun g hgp => hg g (hpre.subset hgp))
      (packed_packInit hb (bs.length * 7 + firstBits (b &&& 0x3f)))
    refine ⟨hp.w_lt, hp.val_eq, fun k hk => ?_⟩
    unfold stepShifts at hk
    split at hk
    · rw [List.mem_singleton.mp hk]
      decide
    · simp only [List.mem_cons, List.not_mem_nil, or_false] at hk
      omega

/-- The three bytes of `-(1 * 128 ^ 2 + 2 * 128 + 3)`. -/
theorem readInteger_exact_three :
    ∃ n : Integer, readInteger.run (place ([0xc1, 0x82, 0x03] ++ [9])) = .ok (n, place [9]) ∧
      n.sign = true ∧ digitsVal n.digits = 16643 := by
  obtain ⟨n, hrun, hsign, hval, -⟩ :=
    readInteger_exact (show Continues 0xc1 [0x82, 0x03] by decide) [9]
  refine ⟨n, hrun, by rw [hsign]; decide, hval.trans (by decide)⟩

end SmlnjCfg.Asdl
