import EncryptThenMac.Error
import EncryptThenMac.Hash.Hmac

/-!
# Tags

A tag authenticates three byte strings at once: the associated data, which are sent in the clear
or not at all, the initialisation vector, and the ciphertext. The code is over the three one
after the other and then the length of the associated data in bits, so that a byte cannot be
moved from one of them to the next unnoticed. The length is written in eight bytes, modulo
`2 ^ 64`. Of the code the left half is kept.

The parts are fed to the code as they are, one after the other. `compute_eq` says that this is
the code of their concatenation (`authenticated`), which is the form in which a tag is reasoned
about, and that no key is refused: the error that `compute` and `verify` have room for is for a
code that does not take keys of every length, and this one does.
-/

namespace EncryptThenMac.Tag

/-- The length of the associated data in bits, in eight bytes. -/
def lengthField (aad : Bytes) : Bytes :=
  Bytes.bigEndian 8 (8 * aad.length % UInt64.size)

def authenticated (aad iv ciphertext : Bytes) : Bytes :=
  aad ++ iv ++ ciphertext ++ lengthField aad

/-- The tag of associated data, an initialisation vector and a ciphertext. A key that the code
does not take is reported by the size of the combined key that it would be half of. -/
def compute (variant : Variant) (macKey aad iv ciphertext : Bytes) : Except Error Bytes :=
  match Hmac.start? variant.hash macKey with
  | none => .error (.invalidKeySize (macKey.length * 2))
  | some code =>
    let code := code.update aad |>.update iv |>.update ciphertext |>.update (lengthField aad)
    .ok (code.finish.take variant.tagSize)

/-- Whether a byte string is the tag: all of it, and nothing else. -/
def verify (variant : Variant) (macKey aad iv ciphertext tag : Bytes) : Except Error Bool := do
  let expected ← compute variant macKey aad iv ciphertext
  return expected == tag

def ofMessage (variant : Variant) (macKey message : Bytes) : Bytes :=
  (Hmac.code variant.hash macKey message).take variant.tagSize

theorem length_digest (variant : Variant) (message : Bytes) :
    (variant.hash.digest message).length = variant.tagSize * 2 := by
  cases variant with
  | a128cbcHs256 => exact Sha2.parameters32.length_digest _ (by decide) message
  | a192cbcHs384 => exact Sha2.parameters64.length_digest _ (by decide) message
  | a256cbcHs512 => exact Sha2.parameters64.length_digest _ (by decide) message

@[simp] theorem length_ofMessage (variant : Variant) (macKey message : Bytes) :
    (ofMessage variant macKey message).length = variant.tagSize := by
  rw [ofMessage, Hmac.code, List.length_take, length_digest]
  omega

theorem compute_eq (variant : Variant) (macKey aad iv ciphertext : Bytes) :
    compute variant macKey aad iv ciphertext =
      .ok (ofMessage variant macKey (authenticated aad iv ciphertext)) := by
  simp only [compute, Hmac.start?, Hmac.Running.start_eq_ofMessage, Hmac.Running.update_ofMessage,
    Hmac.Running.finish_ofMessage, ofMessage, authenticated, List.nil_append]

/-- The verdict is on whole tags, and there always is one. -/
theorem verify_eq (variant : Variant) (macKey aad iv ciphertext tag : Bytes) :
    verify variant macKey aad iv ciphertext tag =
      .ok (ofMessage variant macKey (authenticated aad iv ciphertext) == tag) := by
  rw [verify, compute_eq]; rfl

end EncryptThenMac.Tag
