import EncryptThenMac.Proofs.Chaining
import EncryptThenMac.Proofs.KeyInUse
import EncryptThenMac.Proofs.Padding
import Mathlib.Data.Set.Function

/-!
# Chaining permutes whole blocks

Chaining is made for byte strings that fill one or more whole blocks. `WholeBlocks` is that
condition, under one name, because everything that stands on one side of chaining has it:
padding writes such byte strings (`wholeBlocks_pad`), encryption turns them into such again
(`wholeBlocks_encrypt`), and decryption takes these and no others.

On them the two directions are inverse to each other from both sides. One equivalence says all
of it at once, refusals included:

> `decrypt key iv y = .ok x ↔ WholeBlocks x ∧ encrypt key iv x = y`

From left to right a result is never made up: encrypting it gives the input back. From right to
left nothing that encryption writes is refused. Whatever is not of this form is refused in one
way (`decrypt_eq_error_iff`). None of it depends on how the round keys were made, so the keys of
the three sizes enter only in the last theorem.
-/

namespace EncryptThenMac

/-- A byte string that fills one or more whole blocks. -/
structure WholeBlocks (bytes : Bytes) : Prop where
  ne_nil : bytes ≠ []
  size_dvd : Block.size ∣ bytes.length

theorem not_wholeBlocks_iff {bytes : Bytes} :
    ¬ WholeBlocks bytes ↔ bytes = [] ∨ ¬ Block.size ∣ bytes.length := by
  constructor
  · intro h
    by_cases hnil : bytes = []
    · exact Or.inl hnil
    · exact Or.inr fun hdvd => h ⟨hnil, hdvd⟩
  · rintro (hnil | hdvd) h
    · exact h.ne_nil hnil
    · exact hdvd h.size_dvd

/-- The condition in the form in which it is checked. -/
theorem not_wholeBlocks_iff_length {bytes : Bytes} :
    ¬ WholeBlocks bytes ↔ bytes.length = 0 ∨ bytes.length % Block.size ≠ 0 := by
  rw [not_wholeBlocks_iff, List.length_eq_zero_iff, Nat.dvd_iff_mod_eq_zero]

theorem WholeBlocks.exists_join {bytes : Bytes} (h : WholeBlocks bytes) :
    ∃ xs : List Block, xs ≠ [] ∧ bytes = Block.join xs := by
  refine ⟨Block.split bytes, ?_, (Block.join_split h.size_dvd).symm⟩
  intro hnil
  have hbytes := Block.join_split h.size_dvd
  rw [hnil] at hbytes
  exact h.ne_nil hbytes.symm

theorem Padding.wholeBlocks_pad (plaintext : Bytes) : WholeBlocks (pad plaintext) :=
  ⟨pad_ne_nil plaintext, size_dvd_length_pad plaintext⟩

/-! ## The three sizes of a cipher key -/

/-- Half a key of one of the three sizes expands to a cipher key of its own size. -/
theorem Aes.Key.exists_ofHalf {half : Bytes}
    (hhalf : half.length = 16 ∨ half.length = 24 ∨ half.length = 32) :
    ∃ key, ofHalf half = .ok key ∧ key.size.bytes = half.length := by
  obtain ⟨variant, hsize⟩ := Variant.exists_halfKeySize_iff.mpr hhalf
  refine ⟨_, ofHalf_of_length hsize, ?_⟩
  rw [hsize]
  exact variant.bytes_cipherKeySize

namespace Cbc

variable {key : Aes.Key} {iv : Block} {x y : Bytes}

/-! ## What goes in and what comes out -/

theorem wholeBlocks_encrypt (h : WholeBlocks x) : WholeBlocks (encrypt key iv x) :=
  ⟨encrypt_ne_nil h.ne_nil h.size_dvd, size_dvd_length_encrypt x⟩

theorem wholeBlocks_of_decrypt (h : decrypt key iv y = .ok x) : WholeBlocks x := by
  obtain ⟨hne, _⟩ := whole_of_decrypt h
  refine ⟨?_, size_dvd_of_decrypt h⟩
  rintro rfl
  exact hne (List.eq_nil_of_length_eq_zero (length_of_decrypt h).symm)

theorem exists_decrypt (key : Aes.Key) (iv : Block) (h : WholeBlocks y) :
    ∃ x, decrypt key iv y = .ok x :=
  ⟨_, decrypt_of_whole h.ne_nil h.size_dvd⟩

/-! ## The two directions -/

/-- **Decryption is the inverse of encryption, and no more.** -/
theorem decrypt_eq_ok_iff : decrypt key iv y = .ok x ↔ WholeBlocks x ∧ encrypt key iv x = y := by
  constructor
  · intro h
    exact ⟨wholeBlocks_of_decrypt h, encrypt_of_decrypt h⟩
  · rintro ⟨hx, rfl⟩
    exact decrypt_encrypt hx.ne_nil hx.size_dvd

/-- There is one error, and it is for the length. -/
theorem decrypt_eq_error_iff {error : Error} :
    decrypt key iv y = .error error ↔
      error = .malformedCiphertext .notWholeBlocks ∧ ¬ WholeBlocks y := by
  constructor
  · intro h
    by_cases hy : WholeBlocks y
    · obtain ⟨x, hx⟩ := exists_decrypt key iv hy
      rw [hx] at h
      exact absurd h (by simp)
    · rw [decrypt, if_pos (not_wholeBlocks_iff_length.mp hy)] at h
      exact ⟨(Except.error.inj h).symm, hy⟩
  · rintro ⟨rfl, hy⟩
    rw [decrypt, if_pos (not_wholeBlocks_iff_length.mp hy)]

theorem bijOn_encrypt (key : Aes.Key) (iv : Block) :
    Set.BijOn (encrypt key iv) {x | WholeBlocks x} {y | WholeBlocks y} := by
  refine ⟨?_, ?_, ?_⟩
  · intro x hx
    exact wholeBlocks_encrypt hx
  · intro x hx x' hx' hsame
    have hdecrypt := decrypt_eq_ok_iff.mpr ⟨hx, hsame⟩
    rw [decrypt_eq_ok_iff.mpr ⟨hx', rfl⟩] at hdecrypt
    exact (Except.ok.inj hdecrypt).symm
  · intro y hy
    obtain ⟨x, hx⟩ := exists_decrypt key iv hy
    exact ⟨x, decrypt_eq_ok_iff.mp hx⟩

/-- **Chaining is a permutation of whole blocks that decryption inverts.** For a cipher key of one
of the three sizes and any vector: both directions keep the length and undo each other, on
every byte string that fills one or more whole blocks; encryption takes these to these one to
one and onto; decryption gives a result exactly for what encryption makes of it; and what is
empty or does not fill whole blocks is refused, in one way, and nothing else is. -/
theorem chaining_is_a_bijection {half : Bytes}
    (hhalf : half.length = 16 ∨ half.length = 24 ∨ half.length = 32) :
    ∃ key, Aes.Key.ofHalf half = .ok key ∧ key.size.bytes = half.length ∧ ∀ iv : Block,
      (∀ x, WholeBlocks x →
        (encrypt key iv x).length = x.length ∧ decrypt key iv (encrypt key iv x) = .ok x) ∧
      (∀ x, WholeBlocks x → ∃ y, decrypt key iv x = .ok y ∧ y.length = x.length ∧
        encrypt key iv y = x) ∧
      Set.BijOn (encrypt key iv) {x | WholeBlocks x} {y | WholeBlocks y} ∧
      (∀ x y, decrypt key iv y = .ok x ↔ WholeBlocks x ∧ encrypt key iv x = y) ∧
      (∀ x error, decrypt key iv x = .error error ↔
        error = .malformedCiphertext .notWholeBlocks ∧ (x = [] ∨ ¬ Block.size ∣ x.length)) := by
  obtain ⟨key, hkey, hsize⟩ := Aes.Key.exists_ofHalf hhalf
  refine ⟨key, hkey, hsize, fun iv => ⟨?_, ?_, bijOn_encrypt key iv, ?_, ?_⟩⟩
  · intro x hx
    exact ⟨length_encrypt hx.size_dvd, decrypt_eq_ok_iff.mpr ⟨hx, rfl⟩⟩
  · intro x hx
    obtain ⟨y, hy⟩ := exists_decrypt key iv hx
    exact ⟨y, hy, length_of_decrypt hy, encrypt_of_decrypt hy⟩
  · intro x y
    exact decrypt_eq_ok_iff
  · intro x error
    rw [decrypt_eq_error_iff, not_wholeBlocks_iff]

/-- At a cipher key of 24 bytes: three blocks come back, and 17 bytes are refused. -/
theorem chaining_is_a_bijection_replicate :
    (List.replicate 24 (7 : UInt8)).length = 24 ∧ WholeBlocks (List.replicate 48 5) ∧
      ∃ key, Aes.Key.ofHalf (List.replicate 24 7) = .ok key ∧
        decrypt key .zero (encrypt key .zero (List.replicate 48 5)) =
          .ok (List.replicate 48 5) ∧
        decrypt key .zero (List.replicate 17 5) =
          .error (.malformedCiphertext .notWholeBlocks) := by
  have hlen : (List.replicate 24 (7 : UInt8)).length = 24 := List.length_replicate
  have hwhole : WholeBlocks (List.replicate 48 (5 : UInt8)) := ⟨by simp, ⟨3, by decide⟩⟩
  obtain ⟨key, hkey, _, hchain⟩ := chaining_is_a_bijection (Or.inr (Or.inl hlen))
  obtain ⟨hforth, _, _, _, hrefused⟩ := hchain .zero
  refine ⟨hlen, hwhole, key, hkey, (hforth _ hwhole).2, (hrefused _ _).mpr ⟨rfl, Or.inr ?_⟩⟩
  decide

end Cbc

end EncryptThenMac
