import EncryptThenMac.Proofs.Canonical
import Mathlib.Algebra.Group.Nat.Defs

/-!
# What a forger has to do

Two envelopes that both open are the same envelope for the same associated data, or their tags
are over different byte strings. So whoever changes something and still has it opened has found
the tag of a byte string that was not authenticated before: there is no way around the code.

The argument has two halves. The tag is compared as a whole, so that for one message there is
one tag, and a change to the tag alone is always refused. And the authenticated byte string can
be taken apart again (`Tag.authenticated_injective`), although nothing in it says where its
parts end: its last eight bytes give the length of the associated data, the vector has a fixed
length, and the body is what is left. This is where the length field is needed, and where it has
to be the length and not a remainder of it: the associated data must be shorter than `2 ^ 61`
bytes, so that their length in bits fits into 64 bits.
-/

namespace EncryptThenMac

/-! ## Numbers in bytes -/

namespace Bytes

theorem ofBigEndian_append_singleton (bytes : Bytes) (byte : UInt8) :
    ofBigEndian (bytes ++ [byte]) = ofBigEndian bytes * 256 + byte.toNat := by
  simp [ofBigEndian]

theorem ofBigEndian_bigEndian_mod : ∀ n x : Nat, ofBigEndian (bigEndian n x) = x % 256 ^ n
  | 0, x => by simp [bigEndian, ofBigEndian, Nat.mod_one]
  | n + 1, x => by
    have digit : (UInt8.ofNat x).toNat = x % 256 := by simp
    rw [bigEndian, ofBigEndian_append_singleton, ofBigEndian_bigEndian_mod n, digit, Nat.pow_succ,
      Nat.mul_comm (256 ^ n) 256, Nat.mod_mul]
    omega

/-- A number that fits comes back. -/
theorem ofBigEndian_bigEndian {n x : Nat} (h : x < 256 ^ n) : ofBigEndian (bigEndian n x) = x := by
  rw [ofBigEndian_bigEndian_mod, Nat.mod_eq_of_lt h]

end Bytes

/-! ## The authenticated byte string -/

namespace Tag

theorem lengthField_eq (aad : Bytes) :
    lengthField aad = Bytes.bigEndian 8 (8 * aad.length % 2 ^ 64) := rfl

theorem ofBigEndian_lengthField (aad : Bytes) :
    Bytes.ofBigEndian (lengthField aad) = 8 * aad.length % 2 ^ 64 := by
  rw [lengthField_eq, Bytes.ofBigEndian_bigEndian (by omega)]

/-- In bytes, the field is the length modulo `2 ^ 61`. -/
theorem lengthField_eq_iff {aad aad' : Bytes} :
    lengthField aad = lengthField aad' ↔ aad.length % 2 ^ 61 = aad'.length % 2 ^ 61 := by
  have hmod : lengthField aad = lengthField aad' ↔
      8 * aad.length % 2 ^ 64 = 8 * aad'.length % 2 ^ 64 := by
    constructor
    · intro h
      rw [← ofBigEndian_lengthField, ← ofBigEndian_lengthField, h]
    · intro h
      rw [lengthField_eq, lengthField_eq, h]
  rw [hmod]
  omega

theorem length_eq_of_lengthField_eq {aad aad' : Bytes} (haad : aad.length < 2 ^ 61)
    (haad' : aad'.length < 2 ^ 61) (h : lengthField aad = lengthField aad') :
    aad.length = aad'.length := by
  rw [lengthField_eq_iff] at h
  omega

/-- Where the associated data end is all that has to be known. -/
theorem eq_of_authenticated_eq {aad aad' iv iv' body body' : Bytes}
    (hlen : aad.length = aad'.length) (hiv : iv.length = iv'.length)
    (h : authenticated aad iv body = authenticated aad' iv' body') :
    aad = aad' ∧ iv = iv' ∧ body = body' := by
  obtain ⟨hparts, _⟩ := List.append_inj' h (by simp [lengthField])
  obtain ⟨hfront, hbody⟩ := List.append_inj hparts (by simp [hlen, hiv])
  obtain ⟨haads, hivs⟩ := List.append_inj hfront hlen
  exact ⟨haads, hivs, hbody⟩

/-- **The authenticated byte string has one reading.** It is taken apart from its end: first the
length field, which gives the length of the associated data, then these and the vector from the
front. -/
theorem authenticated_injective {aad aad' iv iv' body body' : Bytes} (haad : aad.length < 2 ^ 61)
    (haad' : aad'.length < 2 ^ 61) (hiv : iv.length = iv'.length)
    (h : authenticated aad iv body = authenticated aad' iv' body') :
    aad = aad' ∧ iv = iv' ∧ body = body' := by
  obtain ⟨_, hfield⟩ := List.append_inj' h (by simp [lengthField])
  exact eq_of_authenticated_eq (length_eq_of_lengthField_eq haad haad' hfield) hiv h

end Tag

namespace Sealer

variable (sealer : Sealer)

/-! ## The message and the tag of an envelope, by position -/

/-- The byte string that the tag of an envelope has to be the code of. -/
def message (bytes aad : Bytes) : Bytes :=
  Tag.authenticated aad (bytes.take Block.size)
    ((bytes.drop Block.size).take (bytes.length - Block.size - sealer.tagSize))

def trailingTag (bytes : Bytes) : Bytes :=
  bytes.drop (bytes.length - sealer.tagSize)

variable {sealer}

theorem message_of_parts {aad body tag : Bytes} {iv : Block} (htag : tag.length = sealer.tagSize) :
    sealer.message (iv.toBytes ++ body ++ tag) aad = Tag.authenticated aad iv.toBytes body := by
  show Tag.authenticated aad _ (sealer.bodyOf (iv.toBytes ++ body ++ tag)) = _
  rw [bodyOf_of_parts htag, List.append_assoc, List.take_left' (Block.length_toBytes iv)]

theorem trailingTag_of_parts {front tag : Bytes} (htag : tag.length = sealer.tagSize) :
    sealer.trailingTag (front ++ tag) = tag := by
  rw [trailingTag, List.length_append, htag, Nat.add_sub_cancel, List.drop_left' rfl]

theorem front_of_parts {front tag : Bytes} (htag : tag.length = sealer.tagSize) :
    (front ++ tag).take ((front ++ tag).length - sealer.tagSize) = front := by
  rw [List.length_append, htag, Nat.add_sub_cancel, List.take_left' rfl]

/-! ## The tag of an opened envelope -/

theorem trailingTag_of_openBytes {bytes aad plaintext : Bytes}
    (h : (sealer.openBytes bytes aad).outcome = .ok plaintext) :
    sealer.trailingTag bytes =
      (Hmac.code sealer.variant.hash sealer.macKey (sealer.message bytes aad)).take
        sealer.tagSize := by
  obtain ⟨iv, body, _, _, rfl⟩ := parts_of_openBytes h
  rw [trailingTag_of_parts (length_rightTag aad iv body),
    message_of_parts (length_rightTag aad iv body)]
  rfl

/-- No other last bytes of the same number do. -/
theorem openBytes_of_other_tag {bytes aad plaintext tag : Bytes}
    (h : (sealer.openBytes bytes aad).outcome = .ok plaintext) (htag : tag.length = sealer.tagSize)
    (hne : tag ≠ sealer.trailingTag bytes) :
    sealer.openBytes (bytes.take (bytes.length - sealer.tagSize) ++ tag) aad =
      .refuse .decryptionFailed .decryptionFailed := by
  obtain ⟨iv, body, hbody, hdvd, rfl⟩ := parts_of_openBytes h
  rw [trailingTag_of_parts (length_rightTag aad iv body)] at hne
  rw [front_of_parts (length_rightTag aad iv body),
    openBytes_of_parts htag hbody hdvd (openParts_of_wrong_tag hne.symm)]
  rfl

theorem eq_of_message_eq {bytes aad plaintext bytes' aad' plaintext' : Bytes}
    (h : (sealer.openBytes bytes aad).outcome = .ok plaintext)
    (h' : (sealer.openBytes bytes' aad').outcome = .ok plaintext') (haad : aad.length < 2 ^ 61)
    (haad' : aad'.length < 2 ^ 61)
    (hmessage : sealer.message bytes' aad' = sealer.message bytes aad) :
    bytes' = bytes ∧ aad' = aad := by
  obtain ⟨iv, body, _, _, rfl⟩ := parts_of_openBytes h
  obtain ⟨iv', body', _, _, rfl⟩ := parts_of_openBytes h'
  rw [message_of_parts (length_rightTag aad iv body),
    message_of_parts (length_rightTag aad' iv' body')] at hmessage
  have hiv : iv'.toBytes.length = iv.toBytes.length := rfl
  obtain ⟨rfl, hivs, rfl⟩ := Tag.authenticated_injective haad' haad hiv hmessage
  -- The tag is a function of the associated data, the bytes of the vector and the body.
  refine ⟨?_, rfl⟩
  rw [rightTag, rightTag, hivs]

/-- **Tampering comes down to the code.** Starting from an envelope that opens: with other bytes
in place of the tag, one or all of them, it is refused, however long the associated data are;
and whatever else opens under this key is the same envelope for the same associated data, or has
a message that this one does not have and ends in the truncated code of that. -/
theorem tampering_needs_a_code {bytes aad plaintext : Bytes}
    (h : (sealer.openBytes bytes aad).outcome = .ok plaintext) :
    (∀ tag : Bytes, tag.length = sealer.tagSize → tag ≠ sealer.trailingTag bytes →
      sealer.openBytes (bytes.take (bytes.length - sealer.tagSize) ++ tag) aad =
        .refuse .decryptionFailed .decryptionFailed) ∧
    (aad.length < 2 ^ 61 → ∀ bytes' aad' plaintext' : Bytes, aad'.length < 2 ^ 61 →
      (sealer.openBytes bytes' aad').outcome = .ok plaintext' →
      (bytes' = bytes ∧ aad' = aad) ∨
      (sealer.message bytes' aad' ≠ sealer.message bytes aad ∧
        sealer.trailingTag bytes =
          (Hmac.code sealer.variant.hash sealer.macKey (sealer.message bytes aad)).take
            sealer.tagSize ∧
        sealer.trailingTag bytes' =
          (Hmac.code sealer.variant.hash sealer.macKey (sealer.message bytes' aad')).take
            sealer.tagSize)) := by
  refine ⟨fun tag htag hne => openBytes_of_other_tag h htag hne, ?_⟩
  intro haad bytes' aad' plaintext' haad' h'
  by_cases hmessage : sealer.message bytes' aad' = sealer.message bytes aad
  · exact Or.inl (eq_of_message_eq h h' haad haad' hmessage)
  · exact Or.inr ⟨hmessage, trailingTag_of_openBytes h, trailingTag_of_openBytes h'⟩

/-- Starting from three bytes that were sealed under a key of 48 bytes. -/
theorem tampering_needs_a_code_sealed :
    ∃ sealer bytes, (Sealer.ofKey (List.replicate 48 7)).outcome = .ok sealer ∧
      sealer.sealBytes .zero [1, 2, 3] [4] = .ok bytes ∧
      (sealer.openBytes bytes [4]).outcome = .ok [1, 2, 3] ∧
      (∀ tag : Bytes, tag.length = sealer.tagSize → tag ≠ sealer.trailingTag bytes →
        sealer.openBytes (bytes.take (bytes.length - sealer.tagSize) ++ tag) [4] =
          .refuse .decryptionFailed .decryptionFailed) ∧
      ∀ bytes' aad' plaintext' : Bytes, aad'.length < 2 ^ 61 →
        (sealer.openBytes bytes' aad').outcome = .ok plaintext' →
        (bytes' = bytes ∧ aad' = [4]) ∨ sealer.message bytes' aad' ≠ sealer.message bytes [4] := by
  have hkey : (List.replicate 48 (7 : UInt8)).length = Variant.a192cbcHs384.keySize := rfl
  have hseal := fun sealer : Sealer => @sealBytes_eq sealer .zero [1, 2, 3] [4]
  have hopen := fun sealer : Sealer => congrArg Traced.outcome (openBytes_sealBytes (hseal sealer))
  refine ⟨_, _, congrArg Traced.outcome (ofKey_of_length hkey), hseal _, hopen _, ?_, ?_⟩
  · exact (tampering_needs_a_code (hopen _)).1
  · intro bytes' aad' plaintext' haad' h'
    have := (tampering_needs_a_code (hopen _)).2 (by decide) bytes' aad' plaintext' haad' h'
    exact this.imp_right And.left

end Sealer

end EncryptThenMac
