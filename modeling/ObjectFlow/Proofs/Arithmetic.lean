import Mathlib.Data.Int.Bitwise
import ObjectFlow.Constant.Value

/-!
# Arithmetic on 32 bits

`BinaryOp.result?` says what an operator yields when a program runs, in terms of integers: results
are taken modulo `2 ^ 32`, quotients are cut off towards zero, only the five lowest bits of a shift
distance count, comparisons yield 1 or 0, and nothing is divided by zero. The operators on words
that the analysis evaluates compute just that: `result?_eq`.
-/

namespace ObjectFlow

/-- What a comparison yields. -/
def truth (holds : Prop) [Decidable holds] : Int32 := if holds then 1 else 0

/-- The result of an operator on two numbers when a program runs. -/
def BinaryOp.result? (op : BinaryOp) (a b : Int32) : Option Int32 :=
  let x := a.toInt
  let y := b.toInt
  let distance := (y % 32).toNat
  match op with
  | .add => some (.ofInt (x + y))
  | .sub => some (.ofInt (x - y))
  | .mul => some (.ofInt (x * y))
  | .div => if y = 0 then none else some (.ofInt (x.tdiv y))
  | .rem => if y = 0 then none else some (.ofInt (x.tmod y))
  | .and => some (.ofInt (x.land y))
  | .or => some (.ofInt (x.lor y))
  | .xor => some (.ofInt (x.xor y))
  | .shl => some (.ofInt (x * 2 ^ distance))
  | .shr => some (.ofInt (x / 2 ^ distance))
  | .ushr => some (.ofInt (x % 2 ^ 32 / 2 ^ distance))
  | .eq => some (truth (x = y))
  | .ne => some (truth (x ≠ y))
  | .lt => some (truth (x < y))
  | .gt => some (truth (x > y))
  | .le => some (truth (x ≤ y))
  | .ge => some (truth (x ≥ y))

/-! ## Bits -/

theorem getLsbD_ofInt (x : Int) {i : Nat} (hi : i < 32) :
    (BitVec.ofInt 32 x).getLsbD i = x.testBit i := by
  cases x with
  | ofNat n =>
    show (BitVec.ofInt 32 (n : Int)).getLsbD i = Nat.testBit n i
    rw [BitVec.ofInt_natCast, BitVec.getLsbD_ofNat]
    simp [hi]
  | negSucc n =>
    show _ = !Nat.testBit n i
    rw [BitVec.ofInt_negSucc_eq_not_ofNat, BitVec.getLsbD_not, BitVec.getLsbD_ofNat]
    simp [hi]

theorem getLsbD_toBitVec (a : Int32) {i : Nat} (hi : i < 32) :
    a.toBitVec.getLsbD i = a.toInt.testBit i := by
  rw [← getLsbD_ofInt _ hi]
  congr 1
  exact (BitVec.ofInt_toInt ..).symm

/-- A number is told by its bits. -/
theorem eq_ofInt_of_bits {a : Int32} {x : Int}
    (h : ∀ i < 32, a.toBitVec.getLsbD i = x.testBit i) : a = .ofInt x := by
  rw [← Int32.toBitVec_inj]
  refine BitVec.eq_of_getLsbD_eq fun i hi => ?_
  rw [h i hi]
  exact (getLsbD_ofInt x hi).symm

theorem and_eq_ofInt (a b : Int32) : a &&& b = .ofInt (a.toInt.land b.toInt) := by
  refine eq_ofInt_of_bits fun i hi => ?_
  rw [Int32.toBitVec_and, BitVec.getLsbD_and, getLsbD_toBitVec a hi, getLsbD_toBitVec b hi,
    Int.testBit_land]

theorem or_eq_ofInt (a b : Int32) : a ||| b = .ofInt (a.toInt.lor b.toInt) := by
  refine eq_ofInt_of_bits fun i hi => ?_
  rw [Int32.toBitVec_or, BitVec.getLsbD_or, getLsbD_toBitVec a hi, getLsbD_toBitVec b hi,
    Int.testBit_lor]

theorem xor_eq_ofInt (a b : Int32) : a ^^^ b = .ofInt (a.toInt.xor b.toInt) := by
  refine eq_ofInt_of_bits fun i hi => ?_
  rw [Int32.toBitVec_xor, BitVec.getLsbD_xor, getLsbD_toBitVec a hi, getLsbD_toBitVec b hi,
    Int.testBit_lxor]

/-! ## Division -/

theorem tdiv_eq_ofInt (a b : Int32) : a / b = .ofInt (a.toInt.tdiv b.toInt) := by
  rw [Int32.ofInt_tdiv (Int32.minValue_le_toInt a) (Int32.toInt_le a) (Int32.minValue_le_toInt b)
    (Int32.toInt_le b), Int32.ofInt_toInt, Int32.ofInt_toInt]

theorem tmod_eq_ofInt (a b : Int32) : a % b = .ofInt (a.toInt.tmod b.toInt) := by
  rw [Int32.ofInt_tmod (Int32.minValue_le_toInt a) (Int32.toInt_le a) (Int32.minValue_le_toInt b)
    (Int32.toInt_le b), Int32.ofInt_toInt, Int32.ofInt_toInt]

/-! ## Shifts -/

theorem toInt_emod_eq (a : Int32) : a.toInt % 2 ^ 32 = a.toBitVec.toNat := by
  show a.toBitVec.toInt % (2 ^ 32 : Nat) = _
  rw [BitVec.toInt_eq_toNat_bmod, Int.bmod_emod]
  have hlt := a.toBitVec.isLt
  omega

/-- The five lowest bits of a number are its remainder modulo 32, whether it is read with a sign or
without. -/
theorem toNat_smod (b : Int32) : (b.toBitVec.smod 32).toNat = (b.toInt % 32).toNat := by
  have hmod : (b.toBitVec.smod 32).toInt = b.toInt % 32 := by
    rw [BitVec.toInt_smod]
    exact Int.fmod_eq_emod_of_nonneg _ (by decide)
  have hcases := BitVec.toInt_eq_toNat_cond (b.toBitVec.smod 32)
  have hlt := (b.toBitVec.smod 32).isLt
  split at hcases <;> omega

theorem toNat_umod (b : Int32) : (b.toBitVec % 32).toNat = (b.toInt % 32).toNat := by
  have h := toInt_emod_eq b
  rw [BitVec.toNat_umod]
  show b.toBitVec.toNat % 32 = _
  omega

theorem shl_eq_ofInt (a b : Int32) : a <<< b = .ofInt (a.toInt * 2 ^ (b.toInt % 32).toNat) := by
  rw [← Int32.toBitVec_inj, Int32.toBitVec_shiftLeft, BitVec.shiftLeft_eq', toNat_smod,
    BitVec.shiftLeft_eq_mul_twoPow, Int32.toBitVec_ofInt, BitVec.ofInt_mul]
  congr 1
  · exact (BitVec.ofInt_toInt ..).symm
  · rw [← BitVec.toNat_inj, BitVec.toNat_twoPow]
    generalize (b.toInt % 32).toNat = n
    rw [show ((2 : Int) ^ n) = ((2 ^ n : Nat) : Int) by push_cast; rfl, BitVec.ofInt_natCast,
      BitVec.toNat_ofNat]

theorem shr_eq_ofInt (a b : Int32) : a >>> b = .ofInt (a.toInt / 2 ^ (b.toInt % 32).toNat) := by
  rw [← Int32.ofInt_toInt (a >>> b)]
  congr 1
  show (a >>> b).toBitVec.toInt = a.toBitVec.toInt / _
  rw [Int32.toBitVec_shiftRight, BitVec.toInt_sshiftRight', toNat_smod, Int.shiftRight_eq_div_pow]
  push_cast
  rfl

theorem ushr_eq_ofInt (a b : Int32) :
    (a.toUInt32 >>> b.toUInt32).toInt32 =
      .ofInt (a.toInt % 2 ^ 32 / 2 ^ (b.toInt % 32).toNat) := by
  rw [← Int32.toBitVec_inj, UInt32.toBitVec_toInt32, UInt32.toBitVec_shiftRight,
    Int32.toBitVec_toUInt32, Int32.toBitVec_toUInt32, Int32.toBitVec_ofInt, toInt_emod_eq,
    BitVec.ushiftRight_eq', toNat_umod, ← BitVec.toNat_inj, BitVec.toNat_ushiftRight,
    Nat.shiftRight_eq_div_pow]
  generalize (b.toInt % 32).toNat = n
  rw [show ((2 : Int) ^ n) = ((2 ^ n : Nat) : Int) by push_cast; rfl, ← Int.natCast_ediv,
    BitVec.ofInt_natCast, BitVec.toNat_ofNat, Nat.mod_eq_of_lt]
  exact Nat.lt_of_le_of_lt (Nat.div_le_self _ _) a.toBitVec.isLt

/-- **Arithmetic.** Words are computed with as the rules for integers say. -/
theorem BinaryOp.result?_eq (op : BinaryOp) (a b : Int32) :
    op.result? a b = if op.mayFault && b = 0 then none else some (op.apply a b) := by
  have hzero : b.toInt = 0 ↔ b = 0 := by
    rw [← Int32.toInt_inj]
    rfl
  cases op with
  | add => simp [result?, mayFault, apply, Int32.ofInt_add]
  | sub => simp [result?, mayFault, apply, Int32.ofInt_sub]
  | mul => simp [result?, mayFault, apply, Int32.ofInt_mul]
  | div => simp [result?, mayFault, apply, hzero, tdiv_eq_ofInt]
  | rem => simp [result?, mayFault, apply, hzero, tmod_eq_ofInt]
  | and => simp [result?, mayFault, apply, and_eq_ofInt]
  | or => simp [result?, mayFault, apply, or_eq_ofInt]
  | xor => simp [result?, mayFault, apply, xor_eq_ofInt]
  | shl => simp [result?, mayFault, apply, shl_eq_ofInt]
  | shr => simp [result?, mayFault, apply, shr_eq_ofInt]
  | ushr => simp [result?, mayFault, apply, ushr_eq_ofInt]
  | eq => simp [result?, mayFault, apply, truth, Int32.toInt_inj]
  | ne => simp [result?, mayFault, apply, truth, Int32.toInt_inj]
  | lt => simp [result?, mayFault, apply, truth, Int32.lt_iff_toInt_lt]
  | gt => simp [result?, mayFault, apply, truth, Int32.lt_iff_toInt_lt]
  | le => simp [result?, mayFault, apply, truth, Int32.le_iff_toInt_le]
  | ge => simp [result?, mayFault, apply, truth, Int32.le_iff_toInt_le]

end ObjectFlow
