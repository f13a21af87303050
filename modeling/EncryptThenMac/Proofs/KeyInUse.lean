import EncryptThenMac.Sealer

/-!
# Taking a key into use

`Sealer.ofKey` makes two choices by length, and it makes them apart: the variant is chosen by
the length of the whole key, and the size of the cipher key by the length of its half. That the
two choices agree is read off the table (`bytes_cipherKeySize`), and then a key of one of the
three sizes is taken into use in exactly one way, `ofKey_of_length`: there is one event, and
every field is given by the key and its variant. A key that is given as two halves is taken into
use as these (`ofKey_append`). Every other key is refused before it is looked at, without an
event (`ofKey_of_other_length`). Read backwards: what is taken into use had one of the sizes
(`exists_length_of_ofKey`), and its parts stand in one row of the table (`mem_rows_of_ofKey`).
-/

namespace EncryptThenMac

/-- The sizes that a key can have. -/
theorem Variant.exists_keySize_iff {n : Nat} :
    (∃ variant : Variant, n = variant.keySize) ↔ n = 32 ∨ n = 48 ∨ n = 64 := by
  constructor
  · rintro ⟨variant, rfl⟩
    cases variant with
    | a128cbcHs256 => exact Or.inl rfl
    | a192cbcHs384 => exact Or.inr (Or.inl rfl)
    | a256cbcHs512 => exact Or.inr (Or.inr rfl)
  · rintro (rfl | rfl | rfl)
    · exact ⟨.a128cbcHs256, rfl⟩
    · exact ⟨.a192cbcHs384, rfl⟩
    · exact ⟨.a256cbcHs512, rfl⟩

theorem Variant.exists_halfKeySize_iff {n : Nat} :
    (∃ variant : Variant, n = variant.halfKeySize) ↔ n = 16 ∨ n = 24 ∨ n = 32 := by
  have hdouble : (∃ variant : Variant, n = variant.halfKeySize) ↔
      ∃ variant : Variant, n * 2 = variant.keySize :=
    exists_congr fun variant => by rw [keySize]; omega
  rw [hdouble, exists_keySize_iff]
  omega

theorem CombinedKey.ofBytes_of_length {bytes : Bytes} {variant : Variant}
    (h : bytes.length = variant.keySize) : ofBytes bytes = .ok ⟨variant, bytes, h⟩ := by
  have hsize := Variant.ofKeySize?_eq_some_iff.mpr h
  unfold ofBytes
  split
  · next found hfound =>
    obtain rfl : found = variant := Option.some.inj (hfound.symm.trans hsize)
    rfl
  · next hnone =>
    rw [hsize] at hnone
    exact absurd hnone (by simp)

theorem CombinedKey.ofBytes_of_other_length {bytes : Bytes}
    (h : ∀ variant : Variant, bytes.length ≠ variant.keySize) :
    ofBytes bytes = .error (.invalidKeySize bytes.length) := by
  unfold ofBytes
  split
  · next found hfound => exact absurd (Variant.ofKeySize?_eq_some_iff.mp hfound) (h found)
  · rfl

theorem Aes.Key.ofHalf_of_length {half : Bytes} {variant : Variant}
    (h : half.length = variant.halfKeySize) :
    ofHalf half = .ok ⟨variant.cipherKeySize, variant.cipherKeySize.roundKeys half⟩ := by
  have hsize : KeySize.ofBytes? half.length = some variant.cipherKeySize := by
    rw [h, ← variant.bytes_cipherKeySize, KeySize.ofBytes?_bytes]
  rw [ofHalf, ofBytes?, hsize]
  rfl

/-- **A key of one of the three sizes is taken into use in one way.** -/
theorem Sealer.ofKey_of_length {key : Bytes} {variant : Variant}
    (h : key.length = variant.keySize) :
    Sealer.ofKey key =
      ⟨[.initialized variant],
        .ok ⟨variant, key.take variant.halfKeySize,
          ⟨variant.cipherKeySize,
            variant.cipherKeySize.roundKeys (key.drop variant.halfKeySize)⟩⟩⟩ := by
  have hcipher := Aes.Key.ofHalf_of_length (CombinedKey.length_cipherKey ⟨variant, key, h⟩)
  rw [ofKey, CombinedKey.ofBytes_of_length h]
  show Traced.andThen (.quiet (Aes.Key.ofHalf (CombinedKey.cipherKey ⟨variant, key, h⟩))) _ = _
  rw [hcipher]
  rfl

theorem Sealer.ofKey_of_other_length {key : Bytes}
    (h : ∀ variant : Variant, key.length ≠ variant.keySize) :
    Sealer.ofKey key = ⟨[], .error (.invalidKeySize key.length)⟩ := by
  rw [ofKey, CombinedKey.ofBytes_of_other_length h]
  rfl

section

variable {key : Bytes} {sealer : Sealer}

/-- A key that is taken into use has the size of some variant. -/
theorem Sealer.exists_length_of_ofKey (h : (ofKey key).outcome = .ok sealer) :
    ∃ variant : Variant, key.length = variant.keySize := by
  refine Classical.byContradiction fun hnone => ?_
  rw [ofKey_of_other_length fun variant hlen => hnone ⟨variant, hlen⟩] at h
  exact absurd h (by simp)

theorem Sealer.exists_ofKey_iff :
    (∃ sealer, (ofKey key).outcome = .ok sealer) ↔
      key.length = 32 ∨ key.length = 48 ∨ key.length = 64 := by
  rw [← Variant.exists_keySize_iff]
  constructor
  · rintro ⟨sealer, h⟩
    exact exists_length_of_ofKey h
  · rintro ⟨variant, hlen⟩
    exact ⟨_, congrArg Traced.outcome (ofKey_of_length hlen)⟩

theorem Sealer.ofKey_of_wrong_length
    (h : ¬ (key.length = 32 ∨ key.length = 48 ∨ key.length = 64)) :
    ofKey key = ⟨[], .error (.invalidKeySize key.length)⟩ :=
  ofKey_of_other_length fun variant hlen => h (Variant.exists_keySize_iff.mp ⟨variant, hlen⟩)

/-- The three variants, each with the length of its authentication key and the size of its cipher
key. -/
def Variant.rows : List (Variant × Nat × Aes.KeySize) :=
  [(.a128cbcHs256, 16, .bits128), (.a192cbcHs384, 24, .bits192), (.a256cbcHs512, 32, .bits256)]

theorem Variant.mem_rows (variant : Variant) :
    (variant, variant.halfKeySize, variant.cipherKeySize) ∈ rows := by
  cases variant <;> simp [rows, halfKeySize, cipherKeySize]

/-- Three choices are made by length, and they agree. -/
theorem Sealer.mem_rows_of_ofKey (h : (ofKey key).outcome = .ok sealer) :
    (sealer.variant, sealer.macKey.length, sealer.cipher.size) ∈ Variant.rows := by
  obtain ⟨variant, hlen⟩ := exists_length_of_ofKey h
  rw [ofKey_of_length hlen] at h
  obtain rfl := Except.ok.inj h
  have hmac := CombinedKey.length_macKey ⟨variant, key, hlen⟩
  dsimp only [CombinedKey.macKey] at hmac ⊢
  rw [hmac]
  exact variant.mem_rows

end

/-- The key in use that two halves make. -/
def Sealer.ofHalves (variant : Variant) (macKey cipherKey : Bytes) : Sealer :=
  ⟨variant, macKey, ⟨variant.cipherKeySize, variant.cipherKeySize.roundKeys cipherKey⟩⟩

/-- Two halves of one size are a key, the one for authentication in front. -/
theorem Sealer.ofKey_append {macKey cipherKey : Bytes} {variant : Variant}
    (hmac : macKey.length = variant.halfKeySize)
    (hcipher : cipherKey.length = variant.halfKeySize) :
    Sealer.ofKey (macKey ++ cipherKey) =
      ⟨[.initialized variant], .ok (ofHalves variant macKey cipherKey)⟩ := by
  have hlen : (macKey ++ cipherKey).length = variant.keySize := by
    rw [List.length_append, hmac, hcipher, Variant.keySize]
    omega
  rw [ofKey_of_length hlen, ← hmac, List.take_left' rfl, List.drop_left' rfl]
  rfl

end EncryptThenMac
