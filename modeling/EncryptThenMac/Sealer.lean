import EncryptThenMac.Cbc
import EncryptThenMac.CombinedKey
import EncryptThenMac.Envelope
import EncryptThenMac.Padding
import EncryptThenMac.Tag
import EncryptThenMac.Traced

/-!
# Sealing and opening

A `Sealer` is a key in use: the variant, the half that authenticates, and the other half
expanded for the cipher. It seals a plaintext under an initialisation vector, and opens an
envelope that some sealer with the same key has made for the same associated data.

The order is encrypt, then authenticate. A plaintext is padded and encrypted, and the tag is
over the associated data, the vector and the *ciphertext*, so that nothing is decrypted before
the tag has been checked. `openBytes` has four outcomes: two refusals that anybody could have
foreseen from the length of the envelope, which say so; one refusal for everything that depends
on the key; and the plaintext. Each refusal leaves one event in the log. There is also a place
for an error of the tag, which is handed on without an event; it is never taken, because the
code of a tag takes keys of every length.
-/

namespace EncryptThenMac

/-- A key in use. -/
structure Sealer where
  variant : Variant
  macKey : Bytes
  cipher : Aes.Key
deriving DecidableEq

namespace Sealer

def ofKey (key : Bytes) : Traced Sealer := do
  let key ← CombinedKey.ofBytes key
  let cipher ← Aes.Key.ofHalf key.cipherKey
  Traced.note (.initialized key.variant)
  return ⟨key.variant, key.macKey, cipher⟩

variable (sealer : Sealer)

def keySize : Nat :=
  sealer.variant.keySize

def tagSize : Nat :=
  sealer.variant.tagSize

def redacted : Redacted :=
  ⟨"AesCbcHmac", sealer.variant⟩

/-! ## Sizes -/

def overhead (plaintextLength : Nat) : Nat :=
  Block.size + (Block.size - plaintextLength % Block.size) + sealer.tagSize

def sealedLength (plaintextLength : Nat) : Nat :=
  plaintextLength + sealer.overhead plaintextLength

/-! ## Sealing -/

def tag (aad : Bytes) (iv : Block) (body : Bytes) : Except Error Bytes :=
  Tag.compute sealer.variant sealer.macKey aad iv.toBytes body

/-- The envelope of a plaintext under a vector of the caller's choice, in parts. -/
def sealParts (iv : Block) (plaintext aad : Bytes) : Except Error Envelope := do
  let body := Cbc.encrypt sealer.cipher iv (Padding.pad plaintext)
  let tag ← sealer.tag aad iv body
  return ⟨iv, body, tag⟩

/-- The envelope of a plaintext, as it is sent. A vector may be used only once under a key: a
second use shows how far the two plaintexts agree. -/
def sealBytes (iv : Block) (plaintext aad : Bytes) : Except Error Bytes :=
  (sealer.sealParts iv plaintext aad).map Envelope.toBytes

/-! ## Opening -/

/-- The plaintext of an envelope's parts, or `none` if the tag is wrong or the padding is. An
error is the tag's, of a key that the code does not take; what the cipher or the padding finds
wrong comes out as `none`. -/
def openParts (envelope : Envelope) (aad : Bytes) : Except Error (Option Bytes) := do
  let valid ←
    Tag.verify sealer.variant sealer.macKey aad envelope.iv.toBytes envelope.body envelope.tag
  if valid then
    let unpadded := do
      let padded ← Cbc.decrypt sealer.cipher envelope.iv envelope.body
      Padding.unpad padded
    return unpadded.toOption
  else return none

def malformedEvent (length : Nat) : Malformation → Event
  | .tooShort => .rejectedShort length
  | _ => .rejectedUnaligned length

/-- The plaintext of an envelope, if it was made under this key for these associated data. -/
def openBytes (bytes aad : Bytes) : Traced Bytes :=
  match Envelope.ofBytes sealer.tagSize bytes with
  | .error reason => .refuse (malformedEvent bytes.length reason) (.malformedCiphertext reason)
  | .ok envelope =>
    match sealer.openParts envelope aad with
    | .error error => .quiet (.error error)
    | .ok none => .refuse .decryptionFailed .decryptionFailed
    | .ok (some plaintext) => .done plaintext

end Sealer

end EncryptThenMac
