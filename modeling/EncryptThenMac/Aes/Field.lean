/-!
# The field of 256 elements

A byte stands for a polynomial of degree below eight over the field of two elements, bit `i` for
the coefficient of `xⁱ`. Addition is exclusive or; multiplication is modulo
`x⁸ + x⁴ + x³ + x + 1`. The cipher multiplies by six constants only, so instead of a general
product there is one step, multiplication by `x` (`times2`), and each constant is written out as
a sum of its powers.

Main statements: every one of the multiplications is additive (`times2_xor` and the five that
follow), which is what makes the column mixing a matrix over the field, and a property of all
bytes is decided by trying the 256 of them (`forall_byte`).
-/

namespace EncryptThenMac.Aes

/-! ## Deciding a property of all bytes -/

/-- A decidable property that holds of the numbers below 256, taken as bytes, holds of every
byte. -/
theorem forall_byte (P : UInt8 → Prop) (h : ∀ n : Fin 256, P (UInt8.ofFin n)) (b : UInt8) : P b :=
  h b.toFin

/-! ## Multiplication by constants

A constant names the polynomial by its byte: 2 is `x`, 3 is `x + 1`, and 14 is `x³ + x² + x`. -/

/-- Multiplication by `x`: a shift, and where a coefficient of `x⁸` appears it is replaced by
`x⁴ + x³ + x + 1`. -/
def times2 (b : UInt8) : UInt8 :=
  if b < 0x80 then b <<< 1 else (b <<< 1) ^^^ 0x1b

def times3 (b : UInt8) : UInt8 :=
  times2 b ^^^ b

def times9 (b : UInt8) : UInt8 :=
  times2 (times2 (times2 b)) ^^^ b

def times11 (b : UInt8) : UInt8 :=
  times2 (times2 (times2 b) ^^^ b) ^^^ b

def times13 (b : UInt8) : UInt8 :=
  times2 (times2 (times2 b ^^^ b)) ^^^ b

def times14 (b : UInt8) : UInt8 :=
  times2 (times2 (times2 b ^^^ b) ^^^ b)

/-! ## Additivity -/

theorem lt_half_iff (b : UInt8) : b < 0x80 ↔ b.toBitVec.msb = false := by
  rw [BitVec.msb_eq_false_iff_two_mul_lt, UInt8.lt_iff_toNat_lt]
  have := b.toNat_toBitVec
  simp
  omega

/-- The two cases of `times2` as one sum: what overflows depends on the top bit alone. -/
theorem times2_eq (b : UInt8) :
    times2 b = (b <<< 1) ^^^ (if b.toBitVec.msb then 0x1b else 0) := by
  rw [times2]
  by_cases h : b < 0x80
  · rw [if_pos h, (lt_half_iff b).1 h]; simp
  · have top : b.toBitVec.msb = true := by
      cases hb : b.toBitVec.msb
      · exact absurd ((lt_half_iff b).2 hb) h
      · rfl
    rw [if_neg h, top]; simp

/-- The shift is additive, and so is the top bit; where both bytes overflow, the two corrections
cancel. -/
theorem times2_xor (a b : UInt8) : times2 (a ^^^ b) = times2 a ^^^ times2 b := by
  have shift : (a ^^^ b) <<< 1 = a <<< 1 ^^^ b <<< 1 := UInt8.shiftLeft_xor
  have cancel (x y c : UInt8) : x ^^^ c ^^^ (y ^^^ c) = x ^^^ y := by
    rw [UInt8.xor_comm y c, UInt8.xor_assoc, ← UInt8.xor_assoc c c, UInt8.xor_self, UInt8.zero_xor]
  simp only [times2_eq, shift, UInt8.toBitVec_xor, BitVec.msb_xor]
  cases a.toBitVec.msb <;> cases b.toBitVec.msb <;> simp [cancel] <;> ac_rfl

theorem times3_xor (a b : UInt8) : times3 (a ^^^ b) = times3 a ^^^ times3 b := by
  simp only [times3, times2_xor]; ac_rfl

theorem times9_xor (a b : UInt8) : times9 (a ^^^ b) = times9 a ^^^ times9 b := by
  simp only [times9, times2_xor]; ac_rfl

theorem times11_xor (a b : UInt8) : times11 (a ^^^ b) = times11 a ^^^ times11 b := by
  simp only [times11, times2_xor]; ac_rfl

theorem times13_xor (a b : UInt8) : times13 (a ^^^ b) = times13 a ^^^ times13 b := by
  simp only [times13, times2_xor]; ac_rfl

theorem times14_xor (a b : UInt8) : times14 (a ^^^ b) = times14 a ^^^ times14 b := by
  simp only [times14, times2_xor]; ac_rfl

end EncryptThenMac.Aes
