import EncryptThenMac.Aes.Cipher
import EncryptThenMac.Redacted

/-!
# Combined keys

One key is handed around, and it is two: the front half authenticates, the back half encrypts.
Its length says which variant it is for, and a key of any other length is refused when it is
taken in, so a `CombinedKey` always has the length of its variant (`length_bytes`) and the
halves are of equal length (`length_macKey`, `length_cipherKey`).
-/

namespace EncryptThenMac

/-- A key for one of the variants, not yet taken apart. -/
structure CombinedKey where
  variant : Variant
  bytes : Bytes
  length_bytes : bytes.length = variant.keySize

namespace CombinedKey

def ofBytes (bytes : Bytes) : Except Error CombinedKey :=
  match h : Variant.ofKeySize? bytes.length with
  | some variant => .ok ⟨variant, bytes, Variant.ofKeySize?_eq_some_iff.1 h⟩
  | none => .error (.invalidKeySize bytes.length)

def macKey (key : CombinedKey) : Bytes :=
  key.bytes.take key.variant.halfKeySize

def cipherKey (key : CombinedKey) : Bytes :=
  key.bytes.drop key.variant.halfKeySize

def redacted (key : CombinedKey) : Redacted :=
  ⟨"SplitKey", key.variant⟩

theorem length_macKey (key : CombinedKey) : key.macKey.length = key.variant.halfKeySize := by
  have := key.length_bytes
  simp only [Variant.keySize] at this
  simp only [macKey, List.length_take]
  omega

theorem length_cipherKey (key : CombinedKey) : key.cipherKey.length = key.variant.halfKeySize := by
  have := key.length_bytes
  simp only [Variant.keySize] at this
  simp only [cipherKey, List.length_drop]
  omega

end CombinedKey

/-- The expanded cipher key of the half of a combined key. A half of a wrong size is reported by
the size of the combined key that it would be half of. -/
def Aes.Key.ofHalf (half : Bytes) : Except Error Aes.Key :=
  match Aes.Key.ofBytes? half with
  | some key => .ok key
  | none => .error (.invalidKeySize (half.length * 2))

end EncryptThenMac
