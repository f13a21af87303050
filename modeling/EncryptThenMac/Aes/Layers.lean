import EncryptThenMac.Aes.SBox
import EncryptThenMac.Block

/-!
# The layers of a round

A round of the cipher is four layers, applied to a block one after the other: every byte is
substituted, the rows of the four columns are rotated, every column is mixed by a matrix over
the field of 256 elements, and a round key is added. Each layer is a definition of its own, as
is what undoes it, so that the cipher is a composition and its inverse is the composition in the
opposite order.

Main statements: each of the first three layers is undone from both sides
(`unsubstitute_substitute`, `unrotateRows_rotateRows`, `unmixColumns_mixColumns` and their three
converses). The fourth is its own inverse, `Block.xor_xor_cancel`.

The mixing is the only one of them that is more than a rearrangement. Multiplying the two
matrices out by additivity leaves sixteen sums in one byte each, and such a sum is the byte
itself on the diagonal and nothing off it. That is a statement about 256 bytes, and it is
decided by trying them.
-/

namespace EncryptThenMac

open Aes

/-! ## Substitution -/

namespace Block

def substitute (x : Block) : Block :=
  x.map (Word.map Aes.substitute)

def unsubstitute (x : Block) : Block :=
  x.map (Word.map Aes.unsubstitute)

@[simp] theorem unsubstitute_substitute (x : Block) : x.substitute.unsubstitute = x := by
  simp [substitute, unsubstitute, map, Word.map, Aes.unsubstitute_substitute]

@[simp] theorem substitute_unsubstitute (x : Block) : x.unsubstitute.substitute = x := by
  simp [substitute, unsubstitute, map, Word.map, Aes.substitute_unsubstitute]

/-! ## Rotation of the rows -/

/-- Row `r` of the four columns moves `r` columns to the left. -/
def rotateRows (x : Block) : Block :=
  ⟨⟨x.c0.b0, x.c1.b1, x.c2.b2, x.c3.b3⟩,
    ⟨x.c1.b0, x.c2.b1, x.c3.b2, x.c0.b3⟩,
    ⟨x.c2.b0, x.c3.b1, x.c0.b2, x.c1.b3⟩,
    ⟨x.c3.b0, x.c0.b1, x.c1.b2, x.c2.b3⟩⟩

def unrotateRows (x : Block) : Block :=
  ⟨⟨x.c0.b0, x.c3.b1, x.c2.b2, x.c1.b3⟩,
    ⟨x.c1.b0, x.c0.b1, x.c3.b2, x.c2.b3⟩,
    ⟨x.c2.b0, x.c1.b1, x.c0.b2, x.c3.b3⟩,
    ⟨x.c3.b0, x.c2.b1, x.c1.b2, x.c0.b3⟩⟩

@[simp] theorem unrotateRows_rotateRows (x : Block) : x.rotateRows.unrotateRows = x := rfl

@[simp] theorem rotateRows_unrotateRows (x : Block) : x.unrotateRows.rotateRows = x := rfl

end Block

/-! ## Mixing of the columns -/

namespace Word

/-- The product of a column with the matrix whose rows are the rotations of `2 3 1 1`. -/
def mix (w : Word) : Word :=
  ⟨times2 w.b0 ^^^ times3 w.b1 ^^^ w.b2 ^^^ w.b3,
    w.b0 ^^^ times2 w.b1 ^^^ times3 w.b2 ^^^ w.b3,
    w.b0 ^^^ w.b1 ^^^ times2 w.b2 ^^^ times3 w.b3,
    times3 w.b0 ^^^ w.b1 ^^^ w.b2 ^^^ times2 w.b3⟩

/-- The product of a column with the matrix whose rows are the rotations of `14 11 13 9`. -/
def unmix (w : Word) : Word :=
  ⟨times14 w.b0 ^^^ times11 w.b1 ^^^ times13 w.b2 ^^^ times9 w.b3,
    times9 w.b0 ^^^ times14 w.b1 ^^^ times11 w.b2 ^^^ times13 w.b3,
    times13 w.b0 ^^^ times9 w.b1 ^^^ times14 w.b2 ^^^ times11 w.b3,
    times11 w.b0 ^^^ times13 w.b1 ^^^ times9 w.b2 ^^^ times14 w.b3⟩

end Word

namespace Aes

/-! ### The two matrices are inverse

One row of a product of the matrices is four sums, one for each byte of the column. Which four
is the same for every row up to the order of the summands, so each product is settled by four
facts about one byte. -/

/-- The sums of the product with the mixing inside: the byte for the first, nothing for the
others. -/
theorem unmix_mix_entries (b : UInt8) :
    times14 (times2 b) ^^^ times11 b ^^^ times13 b ^^^ times9 (times3 b) = b ∧
    times14 (times3 b) ^^^ times11 (times2 b) ^^^ times13 b ^^^ times9 b = 0 ∧
    times14 b ^^^ times11 (times3 b) ^^^ times13 (times2 b) ^^^ times9 b = 0 ∧
    times14 b ^^^ times11 b ^^^ times13 (times3 b) ^^^ times9 (times2 b) = 0 :=
  forall_byte (fun b =>
    times14 (times2 b) ^^^ times11 b ^^^ times13 b ^^^ times9 (times3 b) = b ∧
    times14 (times3 b) ^^^ times11 (times2 b) ^^^ times13 b ^^^ times9 b = 0 ∧
    times14 b ^^^ times11 (times3 b) ^^^ times13 (times2 b) ^^^ times9 b = 0 ∧
    times14 b ^^^ times11 b ^^^ times13 (times3 b) ^^^ times9 (times2 b) = 0) (by decide +kernel) b

theorem mix_unmix_entries (b : UInt8) :
    times2 (times14 b) ^^^ times3 (times9 b) ^^^ times13 b ^^^ times11 b = b ∧
    times2 (times11 b) ^^^ times3 (times14 b) ^^^ times9 b ^^^ times13 b = 0 ∧
    times2 (times13 b) ^^^ times3 (times11 b) ^^^ times14 b ^^^ times9 b = 0 ∧
    times2 (times9 b) ^^^ times3 (times13 b) ^^^ times11 b ^^^ times14 b = 0 :=
  forall_byte (fun b =>
    times2 (times14 b) ^^^ times3 (times9 b) ^^^ times13 b ^^^ times11 b = b ∧
    times2 (times11 b) ^^^ times3 (times14 b) ^^^ times9 b ^^^ times13 b = 0 ∧
    times2 (times13 b) ^^^ times3 (times11 b) ^^^ times14 b ^^^ times9 b = 0 ∧
    times2 (times9 b) ^^^ times3 (times13 b) ^^^ times11 b ^^^ times14 b = 0) (by decide +kernel) b

/-- Sixteen summands, taken row by row or column by column. -/
theorem xor_transpose (a b c d e f g h i j k l m n o p : UInt8) :
    (a ^^^ b ^^^ c ^^^ d) ^^^ (e ^^^ f ^^^ g ^^^ h) ^^^ (i ^^^ j ^^^ k ^^^ l) ^^^
        (m ^^^ n ^^^ o ^^^ p) =
      (a ^^^ e ^^^ i ^^^ m) ^^^ (b ^^^ f ^^^ j ^^^ n) ^^^ (c ^^^ g ^^^ k ^^^ o) ^^^
        (d ^^^ h ^^^ l ^^^ p) := by
  ac_rfl

theorem unmix_mix_row (a b c d : UInt8) :
    times14 (times2 a ^^^ times3 b ^^^ c ^^^ d) ^^^
      times11 (a ^^^ times2 b ^^^ times3 c ^^^ d) ^^^
      times13 (a ^^^ b ^^^ times2 c ^^^ times3 d) ^^^
      times9 (times3 a ^^^ b ^^^ c ^^^ times2 d) = a := by
  simp only [times9_xor, times11_xor, times13_xor, times14_xor]
  rw [xor_transpose, (unmix_mix_entries a).1, (unmix_mix_entries b).2.1,
    (unmix_mix_entries c).2.2.1, (unmix_mix_entries d).2.2.2]
  simp

theorem mix_unmix_row (a b c d : UInt8) :
    times2 (times14 a ^^^ times11 b ^^^ times13 c ^^^ times9 d) ^^^
      times3 (times9 a ^^^ times14 b ^^^ times11 c ^^^ times13 d) ^^^
      (times13 a ^^^ times9 b ^^^ times14 c ^^^ times11 d) ^^^
      (times11 a ^^^ times13 b ^^^ times9 c ^^^ times14 d) = a := by
  simp only [times2_xor, times3_xor]
  rw [xor_transpose, (mix_unmix_entries a).1, (mix_unmix_entries b).2.1,
    (mix_unmix_entries c).2.2.1, (mix_unmix_entries d).2.2.2]
  simp

end Aes

namespace Word

@[simp] theorem unmix_mix (w : Word) : w.mix.unmix = w := by
  obtain ⟨a, b, c, d⟩ := w
  simp only [mix, unmix, Word.mk.injEq]
  refine ⟨unmix_mix_row a b c d, ?_, ?_, ?_⟩
  · refine Eq.trans ?_ (unmix_mix_row b c d a); ac_rfl
  · refine Eq.trans ?_ (unmix_mix_row c d a b); ac_rfl
  · refine Eq.trans ?_ (unmix_mix_row d a b c); ac_rfl

@[simp] theorem mix_unmix (w : Word) : w.unmix.mix = w := by
  obtain ⟨a, b, c, d⟩ := w
  simp only [mix, unmix, Word.mk.injEq]
  refine ⟨mix_unmix_row a b c d, ?_, ?_, ?_⟩
  · refine Eq.trans ?_ (mix_unmix_row b c d a); ac_rfl
  · refine Eq.trans ?_ (mix_unmix_row c d a b); ac_rfl
  · refine Eq.trans ?_ (mix_unmix_row d a b c); ac_rfl

end Word

namespace Block

def mixColumns (x : Block) : Block :=
  x.map Word.mix

def unmixColumns (x : Block) : Block :=
  x.map Word.unmix

@[simp] theorem unmixColumns_mixColumns (x : Block) : x.mixColumns.unmixColumns = x := by
  simp [mixColumns, unmixColumns, map]

@[simp] theorem mixColumns_unmixColumns (x : Block) : x.unmixColumns.mixColumns = x := by
  simp [mixColumns, unmixColumns, map]

end Block

end EncryptThenMac
