import EncryptThenMac.Proofs.KeyInUse
import EncryptThenMac.Proofs.Opening

/-!
# What an observer learns

An observer does not hold the key. He reads what is logged, the errors that are reported and
their texts, and whatever a program prints of the values it works with; and he may have sent the
envelopes. What he must not learn is anything about a key or about *why* an envelope was refused
after its lengths had been looked at.

The file has one idea: what he sees is a function of what he may know. Of a key in use that is
the variant, of a refused envelope it is the variant and the length (`Variant.refusal`). Such a
function has no argument for a secret, so that two runs with different secrets look alike
follows by rewriting, and no case of one run has to be compared with a case of the other.

* `openBytes_of_error`: a refusal is the one that the variant and the length give. This is where
  the cases are: an envelope that passes the two looks at its length is refused for its tag or
  for its padding in one and the same way.
* `observer_learns_no_secret`: two keys of one length look alike, and so does whatever is
  refused under them.
-/

namespace EncryptThenMac

/-- How an envelope of so many bytes is refused, in the log and to the caller. -/
def Variant.refusal (variant : Variant) (length : Nat) : Traced Bytes :=
  if length < Block.size + variant.tagSize then
    .refuse (.rejectedShort length) (.malformedCiphertext .tooShort)
  else if length - Block.size - variant.tagSize = 0 ∨
      (length - Block.size - variant.tagSize) % Block.size ≠ 0 then
    .refuse (.rejectedUnaligned length) (.malformedCiphertext .notWholeBlocks)
  else .refuse .decryptionFailed .decryptionFailed

/-- A body of one or more whole blocks passes both looks at the length. -/
theorem Variant.refusal_of_whole {variant : Variant} {body : Nat} (hpos : 0 < body)
    (hdvd : Block.size ∣ body) :
    variant.refusal (Block.size + body + variant.tagSize) =
      .refuse .decryptionFailed .decryptionFailed := by
  have hbody : Block.size + body + variant.tagSize - Block.size - variant.tagSize = body := by omega
  have hwhole : ¬(body = 0 ∨ body % Block.size ≠ 0) := by
    rw [Nat.mod_eq_zero_of_dvd hdvd]
    omega
  rw [refusal, hbody, if_neg (by omega), if_neg hwhole]

namespace Sealer

variable {sealer other : Sealer}

/-! ## One run -/

/-- What is refused is refused in the way of its variant and its length. -/
theorem openBytes_of_error {bytes aad : Bytes} {error : Error}
    (h : (sealer.openBytes bytes aad).outcome = .error error) :
    sealer.openBytes bytes aad = sealer.variant.refusal bytes.length := by
  obtain ⟨traced, hverdict⟩ := exists_verdict sealer aad bytes
  rw [openBytes_of_verdict hverdict] at h ⊢
  cases hverdict with
  | short hlen => exact (if_pos hlen).symm
  | unaligned hlen hbody =>
    have hroom : ¬bytes.length < Block.size + sealer.variant.tagSize := Nat.not_lt.mpr hlen
    rw [Variant.refusal, if_neg hroom]
    exact (if_pos hbody).symm
  | @refused iv body tag padded htag hne hdvd _ _ =>
    have hlen : (iv.toBytes ++ body ++ tag).length =
        Block.size + body.length + sealer.variant.tagSize := by
      rw [List.length_append, List.length_append, Block.length_toBytes, htag]
      rfl
    rw [hlen]
    exact (Variant.refusal_of_whole (List.length_pos_iff.mpr hne) hdvd).symm
  | opened _ _ _ _ _ _ _ => exact absurd h (by simp)

/-- A right tag over one block that has no padding. -/
theorem exists_openBytes_of_unpadded (sealer : Sealer) (aad : Bytes) {block : Bytes}
    (hblock : block.length = Block.size) (hunpad : Padding.unpad block = .error .decryptionFailed) :
    ∃ bytes : Bytes, bytes.length = Block.size + Block.size + sealer.tagSize ∧
      sealer.openBytes bytes aad = .refuse .decryptionFailed .decryptionFailed := by
  have hdvd : Block.size ∣ block.length := ⟨1, hblock⟩
  have hne : block ≠ [] := List.ne_nil_of_length_pos (by rw [hblock]; decide)
  refine ⟨Block.zero.toBytes ++ Cbc.encrypt sealer.cipher .zero block ++
    sealer.rightTag aad .zero (Cbc.encrypt sealer.cipher .zero block), ?_, ?_⟩
  · rw [List.length_append, List.length_append, Block.length_toBytes, Cbc.length_encrypt hdvd,
      hblock, length_rightTag]
  · rw [openBytes_encrypt hne hdvd, hunpad]
    rfl

/-! ## Two runs -/

/-- Two keys in use that an observer cannot tell apart, unless something is opened for him. -/
structure LooksLike (sealer other : Sealer) : Prop where
  variant : sealer.variant = other.variant
  keySize : sealer.keySize = other.keySize
  tagSize : sealer.tagSize = other.tagSize
  overhead : ∀ length, sealer.overhead length = other.overhead length
  sealedLength : ∀ length, sealer.sealedLength length = other.sealedLength length
  onOneLine : sealer.redacted.onOneLine = other.redacted.onOneLine
  onSeveralLines : sealer.redacted.onSeveralLines = other.redacted.onSeveralLines
  -- For envelopes of one length, refused for whatever associated data and for whatever reasons.
  refused : ∀ {bytes bytes' aad aad' : Bytes} {error error' : Error}, bytes.length = bytes'.length →
    (sealer.openBytes bytes aad).outcome = .error error →
    (other.openBytes bytes' aad').outcome = .error error' →
    error = error' ∧ error.message = error'.message ∧
      (sealer.openBytes bytes aad).log.map Event.line =
        (other.openBytes bytes' aad').log.map Event.line

/-- Everything that can be seen of a key in use is made from its variant. -/
theorem looksLike_of_variant_eq (h : sealer.variant = other.variant) : LooksLike sealer other where
  variant := h
  keySize := by rw [keySize, keySize, h]
  tagSize := by rw [tagSize, tagSize, h]
  overhead length := by rw [overhead, overhead, tagSize, tagSize, h]
  sealedLength length := by rw [sealedLength, sealedLength, overhead, overhead, tagSize, tagSize, h]
  onOneLine := by rw [redacted, redacted, h]
  onSeveralLines := by rw [redacted, redacted, h]
  refused := by
    intro bytes bytes' aad aad' error error' hlen herror herror'
    have hrefused := openBytes_of_error herror
    have hrefused' := openBytes_of_error herror'
    rw [← h, ← hlen] at hrefused'
    have hsame : error = error' := by
      rw [hrefused] at herror
      rw [hrefused'] at herror'
      exact Except.error.inj (herror.symm.trans herror')
    refine ⟨hsame, congrArg Error.message hsame, ?_⟩
    rw [hrefused, hrefused']

/-- **An observer learns no secret.** Two keys of one length are refused alike, by their length
and without an event, or they are both taken into use, with the same event, as keys that look
alike, in use and taken apart. What is refused under a key in use is refused in the way that the
variant and the length of the envelope give. -/
theorem observer_learns_no_secret {key key' : Bytes} (hlen : key.length = key'.length) :
    (∃ error, Sealer.ofKey key = ⟨[], .error error⟩ ∧ Sealer.ofKey key' = ⟨[], .error error⟩ ∧
      CombinedKey.ofBytes key = .error error ∧ CombinedKey.ofBytes key' = .error error) ∨
    (∃ event sealer sealer' halves halves',
      Sealer.ofKey key = ⟨[event], .ok sealer⟩ ∧ Sealer.ofKey key' = ⟨[event], .ok sealer'⟩ ∧
      CombinedKey.ofBytes key = .ok halves ∧ CombinedKey.ofBytes key' = .ok halves' ∧
      LooksLike sealer sealer' ∧
      halves.redacted.onOneLine = halves'.redacted.onOneLine ∧
      halves.redacted.onSeveralLines = halves'.redacted.onSeveralLines ∧
      ∀ bytes aad error, (sealer.openBytes bytes aad).outcome = .error error →
        sealer.openBytes bytes aad = sealer.variant.refusal bytes.length) := by
  by_cases hsize : ∃ variant : Variant, key.length = variant.keySize
  · obtain ⟨variant, hkey⟩ := hsize
    have hkey' : key'.length = variant.keySize := hlen.symm.trans hkey
    refine Or.inr ⟨.initialized variant, _, _, _, _, ofKey_of_length hkey, ofKey_of_length hkey',
      CombinedKey.ofBytes_of_length hkey, CombinedKey.ofBytes_of_length hkey',
      looksLike_of_variant_eq rfl, rfl, rfl, ?_⟩
    intro bytes aad error herror
    exact openBytes_of_error herror
  · have hother : ∀ variant : Variant, key.length ≠ variant.keySize :=
      fun variant hkey => hsize ⟨variant, hkey⟩
    have hother' : ∀ variant : Variant, key'.length ≠ variant.keySize :=
      fun variant hkey' => hother variant (hlen.trans hkey')
    refine Or.inl ⟨.invalidKeySize key.length, ofKey_of_other_length hother, ?_,
      CombinedKey.ofBytes_of_other_length hother, ?_⟩
    · rw [hlen]
      exact ofKey_of_other_length hother'
    · rw [hlen]
      exact CombinedKey.ofBytes_of_other_length hother'

/-- Of two keys of 48 bytes, the first refuses a block that ends in the byte 0, and the second,
for other associated data, a block that ends in a byte above sixteen. -/
theorem observer_learns_no_secret_unpadded :
    ∃ sealer sealer' bytes bytes',
      (Sealer.ofKey (List.replicate 48 1)).outcome = .ok sealer ∧
      (Sealer.ofKey (List.replicate 48 2)).outcome = .ok sealer' ∧ LooksLike sealer sealer' ∧
      bytes.length = bytes'.length ∧
      (sealer.openBytes bytes [4]).outcome = .error .decryptionFailed ∧
      (sealer'.openBytes bytes' [5]).outcome = .error .decryptionFailed ∧
      (sealer.openBytes bytes [4]).log.map Event.line =
        (sealer'.openBytes bytes' [5]).log.map Event.line := by
  have hsize : (List.replicate 48 (1 : UInt8)).length = Variant.a192cbcHs384.keySize := rfl
  have hlen : (List.replicate 48 (1 : UInt8)).length = (List.replicate 48 (2 : UInt8)).length := rfl
  rcases observer_learns_no_secret hlen with
    ⟨error, hrefused, _⟩ | ⟨_, sealer, sealer', _, _, hkey, hkey', _, _, hlike, _⟩
  · rw [ofKey_of_length hsize] at hrefused
    exact absurd (congrArg Traced.outcome hrefused) (by simp)
  · have hzero : Padding.unpad (List.replicate 16 0) = .error .decryptionFailed := rfl
    have habove : Padding.unpad (List.replicate 16 17) = .error .decryptionFailed := rfl
    obtain ⟨bytes, hbytes, hopen⟩ := exists_openBytes_of_unpadded sealer [4] rfl hzero
    obtain ⟨bytes', hbytes', hopen'⟩ := exists_openBytes_of_unpadded sealer' [5] rfl habove
    have hout := congrArg Traced.outcome hopen
    have hout' := congrArg Traced.outcome hopen'
    have hsame : bytes.length = bytes'.length := by rw [hbytes, hbytes', hlike.tagSize]
    obtain ⟨_, _, hlines⟩ := hlike.refused hsame hout hout'
    exact ⟨sealer, sealer', bytes, bytes', congrArg Traced.outcome hkey,
      congrArg Traced.outcome hkey', hlike, hsame, hout, hout', hlines⟩

end Sealer

end EncryptThenMac
