import EncryptThenMac.Proofs.Lengths
import EncryptThenMac.Proofs.Tampering

/-!
# Envelopes of another variant

Nothing in an envelope says of which variant it is. A receiver with a key of another variant
therefore takes it for one of his own, finds the vector where it is, and looks for the tag where
his own tags would be: what is behind the vector is cut at another place
(`bodyOf_append_trailingTag`). This file says what he then makes of it, and most of that is
settled by where the cut falls.

* The tags of the middle variant end in the middle of a block and those of the other two do not
  (`Variant.tagSize_mod`). Between the middle variant and another the cut falls into a block, and
  what the receiver takes for the body is refused for its length, whatever is in it.
* Between the other two the cut is off by one whole block. The longer tag takes the last block of
  the body for its own, and this is refused only where it was the only block; the shorter tag
  leaves one block more to the body. Then it is left to the tag, and it would have to be right by
  accident: it is the end of another tag, and would be compared with the code of another message
  under another key.

That the receiver may hold any key, and be given any associated data, needs no argument: only the
last of the cases looks at them.
-/

namespace EncryptThenMac

theorem Variant.tagSize_mod (variant : Variant) :
    variant.tagSize % 16 = if variant = a192cbcHs384 then 8 else 0 := by
  cases variant <;> decide

namespace Sealer

variable {sealer sender receiver : Sealer} {bytes aad : Bytes}

/-! ## By position -/

/-- For tags of every size, the same bytes are behind the vector. -/
theorem bodyOf_append_trailingTag (h : Block.size + sealer.tagSize ≤ bytes.length) :
    sealer.bodyOf bytes ++ sealer.trailingTag bytes = bytes.drop Block.size := by
  have hplace : bytes.length - sealer.tagSize =
      Block.size + (bytes.length - Block.size - sealer.tagSize) := by omega
  rw [bodyOf, trailingTag, hplace, ← List.drop_drop, List.take_append_drop]

/-- Where the length fits, the tag decides. -/
theorem openBytes_of_wrong_code (h : ∃ n, sealer.sealedLength n = bytes.length)
    (hwrong : sealer.trailingTag bytes ≠
      (Hmac.code sealer.variant.hash sealer.macKey (sealer.message bytes aad)).take
        sealer.tagSize) :
    sealer.openBytes bytes aad = .refuse .decryptionFailed .decryptionFailed := by
  obtain ⟨hroom, hbody⟩ := exists_sealedLength_iff.mp h
  obtain ⟨⟨iv, body, tag⟩, rfl, htag, hne, hdvd⟩ := Envelope.exists_whole_parts hroom hbody
  rw [Envelope.toBytes] at hwrong ⊢
  rw [trailingTag_of_parts htag, message_of_parts htag] at hwrong
  rw [openBytes_of_parts htag hne hdvd (openParts_of_wrong_tag hwrong.symm)]
  rfl

/-! ## By length -/

theorem openBytes_of_unaligned (hroom : Block.size + sealer.tagSize ≤ bytes.length)
    (h : ¬ ∃ n, sealer.sealedLength n = bytes.length) :
    sealer.openBytes bytes aad =
      .refuse (.rejectedUnaligned bytes.length) (.malformedCiphertext .notWholeBlocks) := by
  refine openBytes_of_verdict (.unaligned hroom (Classical.byContradiction fun hbody => ?_))
  exact h (exists_sealedLength_iff.mpr ⟨hroom, hbody⟩)

/-- There is room for the longest tag in the shortest envelope. -/
theorem room_of_sealedLength (sender receiver : Sealer) (n : Nat) :
    Block.size + receiver.tagSize ≤ sender.sealedLength n := by
  have hsender : 16 ≤ sender.tagSize ∧ sender.tagSize ≤ 32 := sender.variant.tagSize_bounds
  have hreceiver : 16 ≤ receiver.tagSize ∧ receiver.tagSize ≤ 32 := receiver.variant.tagSize_bounds
  rw [sealedLength_eq, Block.size]
  omega

/-- The length of a tag shows in the length of an envelope, as far as it is not whole blocks. -/
theorem tagSize_mod_of_sealedLength_eq {n n' : Nat}
    (h : receiver.sealedLength n' = sender.sealedLength n) :
    receiver.tagSize % 16 = sender.tagSize % 16 := by
  rw [sealedLength_eq, sealedLength_eq, Block.size] at h
  omega

theorem not_exists_sealedLength_of_middle {n : Nat}
    (h : sender.variant = .a192cbcHs384 ↔ receiver.variant ≠ .a192cbcHs384) :
    ¬ ∃ n', receiver.sealedLength n' = sender.sealedLength n := by
  rintro ⟨n', hlen⟩
  have hmod : receiver.variant.tagSize % 16 = sender.variant.tagSize % 16 :=
    tagSize_mod_of_sealedLength_eq hlen
  rw [Variant.tagSize_mod, Variant.tagSize_mod] at hmod
  by_cases hsender : sender.variant = .a192cbcHs384
  · rw [if_pos hsender, if_neg (h.mp hsender)] at hmod
    exact absurd hmod (by decide)
  · have hreceiver : receiver.variant = .a192cbcHs384 :=
      Decidable.byContradiction fun hne => hsender (h.mpr hne)
    rw [if_neg hsender, if_pos hreceiver] at hmod
    exact absurd hmod (by decide)

/-- A tag that is a block longer takes a block from the body, if there is more than one. -/
theorem exists_sealedLength_of_longer_tag (n : Nat)
    (h : receiver.tagSize = sender.tagSize + Block.size) :
    (∃ n', receiver.sealedLength n' = sender.sealedLength n) ↔ 16 ≤ n := by
  simp only [sealedLength_eq, h, Block.size]
  constructor
  · rintro ⟨n', hlen⟩
    omega
  · intro hn
    exact ⟨n - 16, by omega⟩

theorem exists_sealedLength_of_shorter_tag (n : Nat)
    (h : sender.tagSize = receiver.tagSize + Block.size) :
    ∃ n', receiver.sealedLength n' = sender.sealedLength n := by
  refine ⟨n + 16, ?_⟩
  rw [sealedLength_eq, sealedLength_eq, h, Block.size]
  omega

/-! ## By variant -/

/-- **An envelope of another variant is cut at another place.** What one key has sealed is given
to another, for whatever associated data. If exactly one of the two is of the middle variant, it is
refused for its length. From the first variant to the third, it is refused so exactly for the
plaintexts of fewer than sixteen bytes. For the others of these, and from the third variant to
the first, its length passes and it is refused for its tag, unless its last bytes are the truncated
code under the receiver's key of what the receiver takes for the message. -/
theorem other_variant_cuts_elsewhere (sender receiver : Sealer) (iv : Block)
    (plaintext aad aad' : Bytes) :
    ∃ bytes, sender.sealBytes iv plaintext aad = .ok bytes ∧
      receiver.bodyOf bytes ++ receiver.trailingTag bytes =
        sender.bodyOf bytes ++ sender.trailingTag bytes ∧
      ((sender.variant = .a192cbcHs384 ↔ receiver.variant ≠ .a192cbcHs384) →
        receiver.openBytes bytes aad' =
          .refuse (.rejectedUnaligned bytes.length) (.malformedCiphertext .notWholeBlocks)) ∧
      (sender.variant = .a128cbcHs256 → receiver.variant = .a256cbcHs512 →
        (receiver.openBytes bytes aad' =
            .refuse (.rejectedUnaligned bytes.length) (.malformedCiphertext .notWholeBlocks) ↔
          plaintext.length < 16)) ∧
      (sender.variant = .a128cbcHs256 ∧ receiver.variant = .a256cbcHs512 ∧
          16 ≤ plaintext.length ∨
        sender.variant = .a256cbcHs512 ∧ receiver.variant = .a128cbcHs256 →
        (∀ reason,
          (receiver.openBytes bytes aad').outcome ≠ .error (.malformedCiphertext reason)) ∧
        (receiver.trailingTag bytes ≠
            (Hmac.code receiver.variant.hash receiver.macKey (receiver.message bytes aad')).take
              receiver.tagSize →
          receiver.openBytes bytes aad' = .refuse .decryptionFailed .decryptionFailed)) := by
  obtain ⟨bytes, hseal⟩ : ∃ bytes, sender.sealBytes iv plaintext aad = .ok bytes :=
    ⟨_, sealBytes_eq iv plaintext aad⟩
  have hlen := length_of_sealBytes hseal
  have hroom : ∀ other : Sealer, Block.size + other.tagSize ≤ bytes.length := by
    intro other
    rw [hlen]
    exact room_of_sealedLength sender other plaintext.length
  have hlonger : sender.variant = .a128cbcHs256 → receiver.variant = .a256cbcHs512 →
      receiver.tagSize = sender.tagSize + Block.size := by
    intro hsender hreceiver
    rw [tagSize, tagSize, hsender, hreceiver]
    rfl
  refine ⟨bytes, hseal, ?_, ?_, ?_, ?_⟩
  · rw [bodyOf_append_trailingTag (hroom receiver), bodyOf_append_trailingTag (hroom sender)]
  · intro hmiddle
    refine openBytes_of_unaligned (hroom receiver) ?_
    rw [hlen]
    exact not_exists_sealedLength_of_middle hmiddle
  · intro hsender hreceiver
    have hfits :=
      exists_sealedLength_of_longer_tag plaintext.length (hlonger hsender hreceiver)
    rw [← hlen] at hfits
    rw [← Nat.not_le, ← hfits]
    constructor
    · intro hrefused
      exact malformed_iff.mp ⟨_, congrArg Traced.outcome hrefused⟩
    · exact openBytes_of_unaligned (hroom receiver)
  · intro hcase
    have hfits : ∃ n, receiver.sealedLength n = bytes.length := by
      rw [hlen]
      rcases hcase with ⟨hsender, hreceiver, hlong⟩ | ⟨hsender, hreceiver⟩
      · exact (exists_sealedLength_of_longer_tag _ (hlonger hsender hreceiver)).mpr hlong
      · refine exists_sealedLength_of_shorter_tag plaintext.length ?_
        rw [tagSize, tagSize, hsender, hreceiver]
        rfl
    constructor
    · intro reason hmalformed
      exact malformed_iff.mp ⟨reason, hmalformed⟩ hfits
    · exact openBytes_of_wrong_code hfits

/-- From the first variant to the third, on either side of the border: a plaintext of fifteen bytes
and one of sixteen. -/
theorem other_variant_cuts_elsewhere_border :
    ∃ sender receiver short long, (Sealer.ofKey (List.replicate 32 7)).outcome = .ok sender ∧
      (Sealer.ofKey (List.replicate 64 7)).outcome = .ok receiver ∧
      sender.sealBytes .zero (List.replicate 15 1) [] = .ok short ∧
      sender.sealBytes .zero (List.replicate 16 1) [] = .ok long ∧
      (receiver.openBytes short []).outcome = .error (.malformedCiphertext .notWholeBlocks) ∧
      ∀ reason, (receiver.openBytes long []).outcome ≠ .error (.malformedCiphertext reason) := by
  have hsender : (List.replicate 32 (7 : UInt8)).length = Variant.a128cbcHs256.keySize := rfl
  have hreceiver : (List.replicate 64 (7 : UInt8)).length = Variant.a256cbcHs512.keySize := rfl
  have hcuts := fun plaintext => other_variant_cuts_elsewhere
    (ofHalves .a128cbcHs256 (List.replicate 16 7) (List.replicate 16 7))
    (ofHalves .a256cbcHs512 (List.replicate 32 7) (List.replicate 32 7)) .zero plaintext [] []
  obtain ⟨short, hshort, _, _, hrefused, _⟩ := hcuts (List.replicate 15 1)
  obtain ⟨long, hlong, _, _, _, hpasses⟩ := hcuts (List.replicate 16 1)
  refine ⟨_, _, short, long, congrArg Traced.outcome (ofKey_of_length hsender),
    congrArg Traced.outcome (ofKey_of_length hreceiver), hshort, hlong, ?_, ?_⟩
  · exact congrArg Traced.outcome ((hrefused rfl rfl).mpr (by decide))
  · exact (hpasses (Or.inl ⟨rfl, rfl, by decide⟩)).1

end Sealer

end EncryptThenMac
