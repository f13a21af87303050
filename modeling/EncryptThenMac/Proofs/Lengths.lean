import EncryptThenMac.Proofs.Canonical
import EncryptThenMac.Proofs.MachineWord
import EncryptThenMac.Proofs.Sealing
import Mathlib.Algebra.Group.Nat.Defs
import Mathlib.Order.Monotone.Defs
import Mathlib.Order.Nat

/-!
# Three reckonings of one length

The length of an envelope is reckoned in three places. Before anything is sealed it can be
predicted, by a remainder and three sums (`Sealer.sealedLength`). Sealing then makes a byte string,
and its length is whatever padding and chaining have made of it. Opening looks at the length of
what it is given and refuses what cannot be an envelope. The three have no code in common.

They agree because a predicted length has a plain form (`sealedLength_eq`): the tag, and two blocks
more than the plaintext fills. Everything else is read off that form. It does not depend on the
plaintext within a block, so the length of an envelope tells how many blocks the plaintext fills
and nothing more; and the lengths that opening lets pass are those that leave one or more blocks
between the vector and the tag, which are those of this form (`exists_sealedLength_iff`).

A prediction is made before there is anything to predict it of, so its argument can be any number
that a machine word holds. The last section says for which of them it overflows.
-/

namespace EncryptThenMac

theorem Variant.tagSize_bounds (variant : Variant) :
    16 ≤ variant.tagSize ∧ variant.tagSize ≤ 32 := by
  cases variant <;> decide

namespace Sealer

variable {sealer : Sealer}

/-! ## The prediction -/

theorem overhead_bounds (sealer : Sealer) (n : Nat) :
    Block.size + 1 + sealer.tagSize ≤ sealer.overhead n ∧
      sealer.overhead n ≤ Block.size + Block.size + sealer.tagSize := by
  simp only [overhead, Block.size]
  omega

/-- A vector, the blocks that the plaintext fills, the one that padding fills, and a tag. -/
theorem sealedLength_eq (sealer : Sealer) (n : Nat) :
    sealer.sealedLength n = Block.size * (n / Block.size + 2) + sealer.tagSize := by
  simp only [sealedLength, overhead, Block.size]
  omega

theorem sealedLength_eq_iff {n n' : Nat} :
    sealer.sealedLength n = sealer.sealedLength n' ↔ n / Block.size = n' / Block.size := by
  rw [sealedLength_eq, sealedLength_eq, Nat.add_right_cancel_iff,
    Nat.mul_left_cancel_iff (by decide), Nat.add_right_cancel_iff]

theorem sealedLength_mono (sealer : Sealer) : Monotone sealer.sealedLength := by
  intro n n' hle
  rw [sealedLength_eq, sealedLength_eq]
  have hblocks : n / Block.size ≤ n' / Block.size := Nat.div_le_div_right hle
  exact Nat.add_le_add_right (Nat.mul_le_mul_left _ (Nat.add_le_add_right hblocks 2)) _

/-! ## What opening lets pass -/

/-- The predicted lengths are those that have room for a vector and a tag, and between the two
for one or more whole blocks. -/
theorem exists_sealedLength_iff {length : Nat} :
    (∃ n, sealer.sealedLength n = length) ↔
      Block.size + sealer.tagSize ≤ length ∧
        ¬ (length - Block.size - sealer.tagSize = 0 ∨
          (length - Block.size - sealer.tagSize) % Block.size ≠ 0) := by
  constructor
  · rintro ⟨n, rfl⟩
    rw [sealedLength_eq, Block.size]
    omega
  · rintro ⟨hroom, hbody⟩
    -- A plaintext that fills all of these blocks but the last.
    refine ⟨length - Block.size - sealer.tagSize - Block.size, ?_⟩
    rw [sealedLength_eq]
    rw [Block.size] at *
    omega

theorem exists_sealedLength_of_parts {iv : Block} {body tag : Bytes}
    (htag : tag.length = sealer.tagSize) (hne : body ≠ []) (hdvd : Block.size ∣ body.length) :
    ∃ n, sealer.sealedLength n = (iv.toBytes ++ body ++ tag).length := by
  have hlen : (iv.toBytes ++ body ++ tag).length = Block.size + body.length + sealer.tagSize := by
    rw [List.length_append, List.length_append, Block.length_toBytes, htag]
  have hpos : 0 < body.length := List.length_pos_iff.mpr hne
  have hwhole : body.length % Block.size = 0 := Nat.mod_eq_zero_of_dvd hdvd
  rw [exists_sealedLength_iff, hlen, Nat.add_assoc, Nat.add_sub_cancel_left, Nat.add_sub_cancel]
  omega

/-- **What is malformed is told by the length, and it is what no sealing predicts.** -/
theorem malformed_iff {bytes aad : Bytes} :
    (∃ reason, (sealer.openBytes bytes aad).outcome = .error (.malformedCiphertext reason)) ↔
      ¬ ∃ n, sealer.sealedLength n = bytes.length := by
  obtain ⟨traced, hverdict⟩ := exists_verdict sealer aad bytes
  rw [openBytes_of_verdict hverdict]
  cases hverdict with
  | short hlen =>
    refine iff_of_true ⟨_, rfl⟩ ?_
    rw [exists_sealedLength_iff]
    rintro ⟨hroom, _⟩
    exact Nat.not_lt.mpr hroom hlen
  | unaligned hlen hbody =>
    refine iff_of_true ⟨_, rfl⟩ ?_
    rw [exists_sealedLength_iff]
    rintro ⟨_, hwhole⟩
    exact hwhole hbody
  | refused htag hne hdvd _ _ =>
    refine iff_of_false ?_ (fun h => h (exists_sealedLength_of_parts htag hne hdvd))
    rintro ⟨reason, h⟩
    exact absurd h (by simp)
  | opened htag hne hdvd _ _ _ _ =>
    refine iff_of_false ?_ (fun h => h (exists_sealedLength_of_parts htag hne hdvd))
    rintro ⟨reason, h⟩
    exact absurd h (by simp)

theorem length_of_openBytes {bytes aad plaintext : Bytes}
    (h : (sealer.openBytes bytes aad).outcome = .ok plaintext) :
    bytes.length = sealer.sealedLength plaintext.length := by
  obtain ⟨iv, _, hseal⟩ := sealBytes_of_openBytes h
  exact length_of_sealBytes hseal

/-! ## In machine words -/

section

open MachineWord

/-- `overhead` in machine words, every step of it checked. -/
def overhead? (sealer : Sealer) (n : UInt64) : Option UInt64 := do
  let padding ← sub? (.ofNat Block.size) (n % .ofNat Block.size)
  let front ← add? (.ofNat Block.size) padding
  add? front (.ofNat sealer.tagSize)

def sealedLength? (sealer : Sealer) (n : UInt64) : Option UInt64 := do
  let overhead ← sealer.overhead? n
  add? n overhead

/-- No step of it ever leaves the range. -/
theorem exists_overhead? (sealer : Sealer) (n : UInt64) :
    ∃ overhead, sealer.overhead? n = some overhead ∧
      overhead.toNat = sealer.overhead n.toNat := by
  have hsmall : sealer.tagSize ≤ 32 := sealer.variant.tagSize_bounds.2
  have htag : (UInt64.ofNat sealer.tagSize).toNat = sealer.tagSize :=
    UInt64.toNat_ofNat_of_lt' (by rw [UInt64.size]; omega)
  have hsize : (UInt64.ofNat Block.size).toNat = 16 := rfl
  have hrest : (n % .ofNat Block.size).toNat = n.toNat % 16 := by rw [UInt64.toNat_mod, hsize]
  obtain ⟨padding, hpadding, hpaddingNat⟩ :=
    exists_sub? (.ofNat Block.size) (n % .ofNat Block.size) (by rw [hsize, hrest]; omega)
  rw [hsize, hrest] at hpaddingNat
  obtain ⟨front, hfront, hfrontNat⟩ :=
    exists_add? (.ofNat Block.size) padding (by rw [hsize, UInt64.size]; omega)
  rw [hsize] at hfrontNat
  obtain ⟨overhead, hoverhead, hoverheadNat⟩ :=
    exists_add? front (.ofNat sealer.tagSize) (by rw [htag, UInt64.size]; omega)
  rw [htag] at hoverheadNat
  refine ⟨overhead, ?_, ?_⟩
  · simp only [overhead?, hpadding, hfront, hoverhead, Option.bind_eq_bind, Option.bind_some]
  · rw [hoverheadNat, Sealer.overhead]
    simp only [Block.size]
    omega

theorem sealedLength?_eq {n overhead : UInt64} (h : sealer.overhead? n = some overhead) :
    sealer.sealedLength? n = add? n overhead := by
  rw [sealedLength?, h]
  rfl

end

/-- **The reckonings of a length agree.** What sealing writes has the predicted length, and so has
whatever opens; what is refused as malformed has a length that is predicted for no plaintext. A
prediction grows with the plaintext, by whole blocks. In machine words, the part that is added to
the plaintext is always reckoned right, and adding it overflows only where the exact sum does not
fit. -/
theorem lengths_agree (sealer : Sealer) :
    (∀ iv plaintext aad, ∃ bytes, sealer.sealBytes iv plaintext aad = .ok bytes ∧
      bytes.length = sealer.sealedLength plaintext.length ∧
      bytes.length = plaintext.length + sealer.overhead plaintext.length) ∧
    (∀ bytes aad plaintext, (sealer.openBytes bytes aad).outcome = .ok plaintext →
      bytes.length = sealer.sealedLength plaintext.length) ∧
    (∀ bytes aad,
      (∃ reason, (sealer.openBytes bytes aad).outcome = .error (.malformedCiphertext reason)) ↔
        ¬ ∃ n, sealer.sealedLength n = bytes.length) ∧
    Monotone sealer.sealedLength ∧
    (∀ n n', sealer.sealedLength n = sealer.sealedLength n' ↔ n / 16 = n' / 16) ∧
    (∀ n : UInt64, ∃ overhead, sealer.overhead? n = some overhead ∧
      overhead.toNat = sealer.overhead n.toNat ∧
      16 + 1 + sealer.tagSize ≤ overhead.toNat ∧ overhead.toNat ≤ 16 + 16 + sealer.tagSize ∧
      sealer.sealedLength? n = MachineWord.add? n overhead ∧
      (sealer.sealedLength? n = none ↔ 2 ^ 64 - 1 < n.toNat + overhead.toNat) ∧
      ∀ length, sealer.sealedLength? n = some length ↔
        length.toNat = sealer.sealedLength n.toNat) := by
  refine ⟨?_, ?_, ?_, sealer.sealedLength_mono, ?_, ?_⟩
  · intro iv plaintext aad
    have hlen := length_of_sealBytes (@sealBytes_eq sealer iv plaintext aad)
    exact ⟨_, sealBytes_eq iv plaintext aad, hlen, hlen⟩
  · intro bytes aad plaintext h
    exact length_of_openBytes h
  · intro bytes aad
    exact malformed_iff
  · intro n n'
    exact sealedLength_eq_iff
  · intro n
    obtain ⟨overhead, hoverhead, hnat⟩ := sealer.exists_overhead? n
    obtain ⟨hlow, hhigh⟩ := sealer.overhead_bounds n.toNat
    rw [← hnat] at hlow hhigh
    refine ⟨overhead, hoverhead, hnat, hlow, hhigh, sealedLength?_eq hoverhead, ?_, ?_⟩
    · rw [sealedLength?_eq hoverhead, MachineWord.add?_eq_none_iff, UInt64.size]
      omega
    · intro length
      rw [sealedLength?_eq hoverhead, MachineWord.add?_eq_some_iff, sealedLength, hnat]

/-- Three bytes under a key of 48, whose tags are not whole blocks; and the largest of words, to
which nothing can be added. -/
theorem lengths_agree_sealed :
    ∃ sealer bytes, (Sealer.ofKey (List.replicate 48 7)).outcome = .ok sealer ∧
      sealer.sealBytes .zero [1, 2, 3] [4] = .ok bytes ∧
      (sealer.openBytes bytes [4]).outcome = .ok [1, 2, 3] ∧ bytes.length = 56 ∧
      sealer.sealedLength? 18446744073709551615 = none := by
  have hkey : (List.replicate 48 (7 : UInt8)).length = Variant.a192cbcHs384.keySize := rfl
  obtain ⟨hsealed, hopened, _, _, _, hwords⟩ :=
    lengths_agree (ofHalves .a192cbcHs384 (List.replicate 24 7) (List.replicate 24 7))
  obtain ⟨bytes, hseal, _⟩ := hsealed .zero [1, 2, 3] [4]
  have hopen := congrArg Traced.outcome (openBytes_sealBytes hseal)
  obtain ⟨overhead, _, _, hlow, _, _, hnone, _⟩ := hwords 18446744073709551615
  refine ⟨_, bytes, congrArg Traced.outcome (ofKey_of_length hkey), hseal, hopen,
    hopened bytes [4] [1, 2, 3] hopen, hnone.mpr ?_⟩
  have hlargest : (18446744073709551615 : UInt64).toNat = 18446744073709551615 := rfl
  rw [hlargest]
  omega

end Sealer

end EncryptThenMac
