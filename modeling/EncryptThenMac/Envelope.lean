import EncryptThenMac.Block
import EncryptThenMac.Error

/-!
# Envelopes

What is sent is an envelope: an initialisation vector of one block, then the ciphertext, the
*body*, then the tag. Nothing in it says where one part ends, so it can be taken apart only by
somebody who knows the size of the tag.

`Envelope.ofBytes` takes a byte string apart and refuses what cannot be an envelope under any
key. There are two reasons, looked for in this order: it is too short to hold a vector and a
tag, or its body is not one or more whole blocks. An empty body falls under the second. What
passes is put back together by `toBytes` unchanged (`toBytes_ofBytes`), and what is put together
from fitting parts comes apart into them (`ofBytes_toBytes`).
-/

namespace EncryptThenMac

structure Envelope where
  iv : Block
  body : Bytes
  tag : Bytes
deriving DecidableEq

namespace Envelope

def toBytes (envelope : Envelope) : Bytes :=
  envelope.iv.toBytes ++ envelope.body ++ envelope.tag

/-- The parts of a byte string, for tags of `tagSize` bytes. -/
def ofBytes (tagSize : Nat) (bytes : Bytes) : Except Malformation Envelope :=
  match Block.take? bytes with
  | none => .error .tooShort
  | some (iv, rest) =>
    if rest.length < tagSize then .error .tooShort
    else
      let body := rest.take (rest.length - tagSize)
      let tag := rest.drop (rest.length - tagSize)
      if body.length = 0 ∨ body.length % Block.size ≠ 0 then .error .notWholeBlocks
      else .ok ⟨iv, body, tag⟩

theorem toBytes_ofBytes {tagSize : Nat} {bytes : Bytes} {envelope : Envelope}
    (h : ofBytes tagSize bytes = .ok envelope) : envelope.toBytes = bytes := by
  unfold ofBytes at h
  split at h
  · cases h
  · next iv rest hiv =>
    split at h
    · cases h
    · dsimp only at h
      split at h
      · cases h
      · cases h
        rw [toBytes, List.append_assoc, List.take_append_drop, Block.eq_of_take? hiv]

theorem ofBytes_toBytes {tagSize : Nat} (envelope : Envelope) (ht : envelope.tag.length = tagSize)
    (hb : envelope.body ≠ []) (hs : Block.size ∣ envelope.body.length) :
    ofBytes tagSize envelope.toBytes = .ok envelope := by
  obtain ⟨iv, body, tag⟩ := envelope
  subst ht
  have nonempty : body.length ≠ 0 := fun h => hb (List.eq_nil_of_length_eq_zero h)
  have whole : body.length % Block.size = 0 := Nat.mod_eq_zero_of_dvd hs
  simp [ofBytes, toBytes, List.append_assoc, nonempty, whole]

end Envelope

end EncryptThenMac
