import EncryptThenMac.Proofs.Chaining
import EncryptThenMac.Proofs.Padding
import EncryptThenMac.Sealer

/-!
# The outcomes of opening

Opening looks at lengths first, then at the tag, then at the padding, and each look can end it.
This file says when it ends where, for every byte string: `Verdict` is the relation between a
byte string and what comes of opening it, with one constructor for each of the four outcomes,
and `openBytes_eq_iff` says that opening is that relation.

The constructors are stated without the functions that do the looking. An outcome that is
settled by lengths alone is stated by arithmetic on the length of the whole. The other two speak
of the parts, and the parts are what the byte string is put together from: a vector, a body and
a tag of the right length determine each other by position, so nothing has to be said of how
they are found. What is a valid padding is the plain rule, `Padding.EndsInPad`.

No two constructors give the same result, so a byte string falls under exactly one of them.
-/

namespace EncryptThenMac

/-! ## Taking an envelope apart, by lengths -/

namespace Envelope

theorem length_toBytes (envelope : Envelope) :
    envelope.toBytes.length = Block.size + envelope.body.length + envelope.tag.length := by
  rw [toBytes, List.length_append, List.length_append, Block.length_toBytes]

theorem ofBytes_of_short {tagSize : Nat} {bytes : Bytes} (h : bytes.length < Block.size + tagSize) :
    ofBytes tagSize bytes = .error .tooShort := by
  unfold ofBytes
  cases hiv : Block.take? bytes with
  | none => rfl
  | some found =>
    obtain ⟨iv, rest⟩ := found
    rw [Block.eq_of_take? hiv, List.length_append, Block.length_toBytes] at h
    dsimp only
    rw [if_pos (by omega)]

/-- Where there is room for a vector and a tag, there are parts. -/
theorem exists_parts {tagSize : Nat} {bytes : Bytes} (h : Block.size + tagSize ≤ bytes.length) :
    ∃ envelope : Envelope, envelope.toBytes = bytes ∧ envelope.tag.length = tagSize := by
  obtain ⟨iv, rest, hiv⟩ := Block.exists_take? (Nat.le_of_add_right_le h)
  have hbytes := Block.eq_of_take? hiv
  rw [hbytes, List.length_append, Block.length_toBytes] at h
  refine ⟨⟨iv, rest.take (rest.length - tagSize), rest.drop (rest.length - tagSize)⟩, ?_, ?_⟩
  · rw [toBytes, List.append_assoc, List.take_append_drop, hbytes]
  · rw [List.length_drop]
    omega

/-- Where there is room for whole blocks between the two, the parts are those of an envelope. -/
theorem exists_whole_parts {tagSize : Nat} {bytes : Bytes}
    (hroom : Block.size + tagSize ≤ bytes.length)
    (hbody : ¬ (bytes.length - Block.size - tagSize = 0 ∨
      (bytes.length - Block.size - tagSize) % Block.size ≠ 0)) :
    ∃ envelope : Envelope, envelope.toBytes = bytes ∧ envelope.tag.length = tagSize ∧
      envelope.body ≠ [] ∧ Block.size ∣ envelope.body.length := by
  obtain ⟨envelope, rfl, htag⟩ := exists_parts hroom
  rw [length_toBytes, htag, Nat.add_assoc, Nat.add_sub_cancel_left, Nat.add_sub_cancel] at hbody
  refine ⟨envelope, rfl, htag, ?_, ?_⟩
  · intro hnil
    exact hbody (Or.inl (congrArg List.length hnil))
  · exact Nat.dvd_of_mod_eq_zero (Decidable.byContradiction fun h => hbody (Or.inr h))

theorem ofBytes_of_unaligned {envelope : Envelope}
    (h : envelope.body.length = 0 ∨ envelope.body.length % Block.size ≠ 0) :
    ofBytes envelope.tag.length envelope.toBytes = .error .notWholeBlocks := by
  obtain ⟨iv, body, tag⟩ := envelope
  simp only [ofBytes, toBytes, List.append_assoc, Block.take?_toBytes_append, List.length_append,
    Nat.add_sub_cancel, List.take_left']
  rw [if_neg (by omega), if_pos h]

end Envelope

namespace Sealer

variable (sealer : Sealer)

/-- What stands between the vector and the tag, found by position. -/
def bodyOf (bytes : Bytes) : Bytes :=
  (bytes.drop Block.size).take (bytes.length - Block.size - sealer.tagSize)

variable {sealer} in
theorem bodyOf_of_parts {body tag : Bytes} {iv : Block} (htag : tag.length = sealer.tagSize) :
    sealer.bodyOf (iv.toBytes ++ body ++ tag) = body := by
  have hlen : (iv.toBytes ++ body ++ tag).length - Block.size - sealer.tagSize = body.length := by
    simp only [List.length_append, Block.length_toBytes]
    omega
  rw [bodyOf, hlen, List.append_assoc, List.drop_left' (Block.length_toBytes iv),
    List.take_left' rfl]

/-! ## The two ends of a key -/

/-- The tag that belongs to a vector and a body. -/
def rightTag (aad : Bytes) (iv : Block) (body : Bytes) : Bytes :=
  Tag.ofMessage sealer.variant sealer.macKey (Tag.authenticated aad iv.toBytes body)

variable {sealer}

@[simp] theorem length_rightTag (aad : Bytes) (iv : Block) (body : Bytes) :
    (sealer.rightTag aad iv body).length = sealer.tagSize :=
  Tag.length_ofMessage _ _ _

theorem compute_eq_rightTag (aad : Bytes) (iv : Block) (body : Bytes) :
    Tag.compute sealer.variant sealer.macKey aad iv.toBytes body =
      .ok (sealer.rightTag aad iv body) :=
  Tag.compute_eq _ _ _ _ _

theorem sealBytes_eq (iv : Block) (plaintext aad : Bytes) :
    sealer.sealBytes iv plaintext aad =
      .ok (iv.toBytes ++ Cbc.encrypt sealer.cipher iv (Padding.pad plaintext) ++
        sealer.rightTag aad iv (Cbc.encrypt sealer.cipher iv (Padding.pad plaintext))) := by
  rw [sealBytes, sealParts, tag, compute_eq_rightTag]
  rfl

/-- The tag is compared as a whole, and what the cipher or the padding finds wrong is no
plaintext. -/
theorem openParts_eq (envelope : Envelope) (aad : Bytes) :
    sealer.openParts envelope aad =
      .ok (if sealer.rightTag aad envelope.iv envelope.body = envelope.tag then
        ((Cbc.decrypt sealer.cipher envelope.iv envelope.body).bind Padding.unpad).toOption
      else none) := by
  rw [openParts, Tag.verify_eq]
  show (if (sealer.rightTag aad envelope.iv envelope.body == envelope.tag) = true then _ else _) = _
  by_cases h : sealer.rightTag aad envelope.iv envelope.body = envelope.tag
  · rw [if_pos (beq_iff_eq.mpr h), if_pos h]
    rfl
  · rw [if_neg (fun hbeq => h (beq_iff_eq.mp hbeq)), if_neg h]
    rfl

/-! ## The four outcomes -/

/-- What comes of opening a byte string for given associated data. -/
inductive Verdict (sealer : Sealer) (aad : Bytes) : Bytes → Traced Bytes → Prop where
  -- There is no room for a vector and a tag.
  | short {bytes} : bytes.length < Block.size + sealer.tagSize →
      Verdict sealer aad bytes
        ⟨[.rejectedShort bytes.length], .error (.malformedCiphertext .tooShort)⟩
  -- There is room, and what is left between the two is nothing or not whole blocks.
  | unaligned {bytes} : Block.size + sealer.tagSize ≤ bytes.length →
      (bytes.length - Block.size - sealer.tagSize = 0 ∨
        (bytes.length - Block.size - sealer.tagSize) % Block.size ≠ 0) →
      Verdict sealer aad bytes
        ⟨[.rejectedUnaligned bytes.length], .error (.malformedCiphertext .notWholeBlocks)⟩
  -- The tag is another one than the parts have, or the body holds something without a padding.
  | refused {iv body tag padded} : tag.length = sealer.tagSize →
      body ≠ [] → Block.size ∣ body.length → Cbc.decrypt sealer.cipher iv body = .ok padded →
      (Tag.compute sealer.variant sealer.macKey aad iv.toBytes body ≠ .ok tag ∨
        ¬ Padding.EndsInPad padded) →
      Verdict sealer aad (iv.toBytes ++ body ++ tag) ⟨[.decryptionFailed], .error .decryptionFailed⟩
  -- The tag is right and there is a padding.
  | opened {iv body tag padded plaintext} : tag.length = sealer.tagSize →
      body ≠ [] → Block.size ∣ body.length → Cbc.decrypt sealer.cipher iv body = .ok padded →
      Tag.compute sealer.variant sealer.macKey aad iv.toBytes body = .ok tag →
      Padding.EndsInPad padded → Padding.unpad padded = .ok plaintext →
      Verdict sealer aad (iv.toBytes ++ body ++ tag) ⟨[], .ok plaintext⟩

theorem compute_eq_iff {aad body tag : Bytes} {iv : Block} :
    Tag.compute sealer.variant sealer.macKey aad iv.toBytes body = .ok tag ↔
      sealer.rightTag aad iv body = tag := by
  rw [compute_eq_rightTag]
  exact ⟨Except.ok.inj, fun h => congrArg _ h⟩

theorem openBytes_of_parts {aad body tag : Bytes} {iv : Block} {found : Option Bytes}
    (htag : tag.length = sealer.tagSize) (hne : body ≠ []) (hdvd : Block.size ∣ body.length)
    (hfound : sealer.openParts ⟨iv, body, tag⟩ aad = .ok found) :
    sealer.openBytes (iv.toBytes ++ body ++ tag) aad =
      found.elim (.refuse .decryptionFailed .decryptionFailed) .done := by
  have hparts : Envelope.ofBytes sealer.tagSize (iv.toBytes ++ body ++ tag) = .ok ⟨iv, body, tag⟩ :=
    Envelope.ofBytes_toBytes ⟨iv, body, tag⟩ htag hne hdvd
  rw [openBytes, hparts]
  dsimp only
  rw [hfound]
  cases found with
  | none => rfl
  | some plaintext => rfl

theorem openParts_of_wrong_tag {aad body tag : Bytes} {iv : Block}
    (h : sealer.rightTag aad iv body ≠ tag) :
    sealer.openParts ⟨iv, body, tag⟩ aad = .ok none := by
  rw [openParts_eq, if_neg h]

theorem openParts_of_right_tag {aad body padded : Bytes} {iv : Block}
    (hpadded : Cbc.decrypt sealer.cipher iv body = .ok padded) :
    sealer.openParts ⟨iv, body, sealer.rightTag aad iv body⟩ aad =
      .ok (Padding.unpad padded).toOption := by
  rw [openParts_eq, if_pos rfl, hpadded]
  rfl

theorem openBytes_of_verdict {aad bytes : Bytes} {traced : Traced Bytes}
    (h : Verdict sealer aad bytes traced) : sealer.openBytes bytes aad = traced := by
  cases h with
  | short hlen =>
    rw [openBytes, Envelope.ofBytes_of_short hlen]
    rfl
  | unaligned hlen hbody =>
    obtain ⟨envelope, rfl, htag⟩ := Envelope.exists_parts hlen
    rw [Envelope.length_toBytes, htag] at hbody
    rw [openBytes, ← htag, Envelope.ofBytes_of_unaligned]
    · rfl
    · rwa [Nat.add_assoc, Nat.add_sub_cancel_left, Nat.add_sub_cancel] at hbody
  | @refused iv body tag padded htag hne hdvd hpadded hcause =>
    by_cases hright : sealer.rightTag aad iv body = tag
    · subst hright
      have hpad : ¬ Padding.EndsInPad padded :=
        hcause.resolve_left fun hwrong => hwrong (compute_eq_rightTag aad iv body)
      rw [openBytes_of_parts htag hne hdvd (openParts_of_right_tag hpadded),
        Padding.unpad_of_not_endsInPad hpad]
      rfl
    · rw [openBytes_of_parts htag hne hdvd (openParts_of_wrong_tag hright)]
      rfl
  | opened htag hne hdvd hpadded hright hpad hunpad =>
    obtain rfl := compute_eq_iff.mp hright
    rw [openBytes_of_parts htag hne hdvd (openParts_of_right_tag hpadded), hunpad]
    rfl

theorem exists_verdict (sealer : Sealer) (aad bytes : Bytes) :
    ∃ traced, Verdict sealer aad bytes traced := by
  by_cases hlen : bytes.length < Block.size + sealer.tagSize
  · exact ⟨_, .short hlen⟩
  · have hroom : Block.size + sealer.tagSize ≤ bytes.length := Nat.le_of_not_lt hlen
    by_cases hbody : bytes.length - Block.size - sealer.tagSize = 0 ∨
        (bytes.length - Block.size - sealer.tagSize) % Block.size ≠ 0
    · exact ⟨_, .unaligned hroom hbody⟩
    · obtain ⟨⟨iv, body, tag⟩, rfl, htag, hne, hdvd⟩ := Envelope.exists_whole_parts hroom hbody
      have hpadded : Cbc.decrypt sealer.cipher iv body = .ok _ := Cbc.decrypt_of_whole hne hdvd
      by_cases hright : Tag.compute sealer.variant sealer.macKey aad iv.toBytes body = .ok tag
      · by_cases hpad : Padding.EndsInPad
            (Block.join (Cbc.decryptBlocks sealer.cipher iv (Block.split body)))
        · obtain ⟨plaintext, hunpad⟩ :=
            Padding.exists_unpad_of_endsInPad (Cbc.size_dvd_of_decrypt hpadded) hpad
          exact ⟨_, .opened htag hne hdvd hpadded hright hpad hunpad⟩
        · exact ⟨_, .refused htag hne hdvd hpadded (Or.inr hpad)⟩
      · exact ⟨_, .refused htag hne hdvd hpadded (Or.inl hright)⟩

/-- **Opening is the relation.** Since opening is a function, this also says that the four
exclude each other. -/
theorem openBytes_eq_iff {aad bytes : Bytes} {traced : Traced Bytes} :
    sealer.openBytes bytes aad = traced ↔ Verdict sealer aad bytes traced := by
  constructor
  · rintro rfl
    obtain ⟨traced, h⟩ := exists_verdict sealer aad bytes
    rwa [openBytes_of_verdict h]
  · exact openBytes_of_verdict

/-! ## What is never reached

The code of the tag could refuse its key, and the cipher could refuse the body. Neither does:
the first takes keys of every length, and the second is asked only after the lengths have been
looked at. -/

theorem error_of_openBytes {aad bytes : Bytes} {error : Error}
    (h : (sealer.openBytes bytes aad).outcome = .error error) :
    error = .malformedCiphertext .tooShort ∨ error = .malformedCiphertext .notWholeBlocks ∨
      error = .decryptionFailed := by
  obtain ⟨traced, hverdict⟩ := exists_verdict sealer aad bytes
  rw [openBytes_of_verdict hverdict] at h
  cases hverdict with
  | short _ =>
    cases h
    exact Or.inl rfl
  | unaligned _ _ =>
    cases h
    exact Or.inr (Or.inl rfl)
  | refused _ _ _ _ _ =>
    cases h
    exact Or.inr (Or.inr rfl)
  | opened _ _ _ _ _ _ _ => exact absurd h (by simp)

/-- A byte string under a right tag is opened to what unpadding makes of it, padded or not. -/
theorem openBytes_encrypt {aad padded : Bytes} {iv : Block} (hne : padded ≠ [])
    (hdvd : Block.size ∣ padded.length) :
    sealer.openBytes (iv.toBytes ++ Cbc.encrypt sealer.cipher iv padded ++
        sealer.rightTag aad iv (Cbc.encrypt sealer.cipher iv padded)) aad =
      (Padding.unpad padded).toOption.elim (.refuse .decryptionFailed .decryptionFailed) .done :=
  openBytes_of_parts (length_rightTag _ _ _) (Cbc.encrypt_ne_nil hne hdvd)
    (Cbc.size_dvd_length_encrypt padded) (openParts_of_right_tag (Cbc.decrypt_encrypt hne hdvd))

/-- **The law of opening.** Every byte string has one of the four outcomes, told by its length,
its tag and its padding, in words that depend on the length alone; no other error is possible,
and neither the tag nor the cipher raises one of its own. A right tag over something that has no
padding is refused like a wrong tag. -/
theorem opening_has_four_outcomes (sealer : Sealer) :
    (∀ aad bytes traced, sealer.openBytes bytes aad = traced ↔ Verdict sealer aad bytes traced) ∧
    ((∀ length, (Event.rejectedShort length).line =
        "DEBUG rejected short ciphertext len=" ++ toString length) ∧
      (∀ length, (Event.rejectedUnaligned length).line =
        "DEBUG rejected unaligned ciphertext len=" ++ toString length) ∧
      Event.decryptionFailed.line = "DEBUG decryption failed" ∧
      Malformation.tooShort.reason = "ciphertext too short" ∧
      Malformation.notWholeBlocks.reason =
        "ciphertext is not a positive multiple of the block size") ∧
    (∀ aad bytes error, (sealer.openBytes bytes aad).outcome = .error error →
      error = .malformedCiphertext .tooShort ∨ error = .malformedCiphertext .notWholeBlocks ∨
        error = .decryptionFailed) ∧
    (∀ aad iv body tag, ∃ valid,
      Tag.verify sealer.variant sealer.macKey aad iv body tag = .ok valid) ∧
    (∀ iv body, body ≠ [] → Block.size ∣ body.length →
      ∃ padded, Cbc.decrypt sealer.cipher iv body = .ok padded) ∧
    (∀ aad (iv : Block) padded tag, padded ≠ [] → Block.size ∣ padded.length →
      Tag.compute sealer.variant sealer.macKey aad iv.toBytes
        (Cbc.encrypt sealer.cipher iv padded) = .ok tag →
      (∀ plaintext, padded = Padding.pad plaintext →
        sealer.openBytes (iv.toBytes ++ Cbc.encrypt sealer.cipher iv padded ++ tag) aad =
          .done plaintext) ∧
      (¬ Padding.EndsInPad padded →
        sealer.openBytes (iv.toBytes ++ Cbc.encrypt sealer.cipher iv padded ++ tag) aad =
          .refuse .decryptionFailed .decryptionFailed)) := by
  refine ⟨fun aad bytes traced => openBytes_eq_iff, ⟨fun _ => rfl, fun _ => rfl, rfl, rfl, rfl⟩,
    fun aad bytes error => error_of_openBytes, ?_, ?_, ?_⟩
  · intro aad iv body tag
    exact ⟨_, Tag.verify_eq _ _ _ _ _ _⟩
  · intro iv body hne hdvd
    exact ⟨_, Cbc.decrypt_of_whole hne hdvd⟩
  · intro aad iv padded tag hne hdvd htag
    obtain rfl := compute_eq_iff.mp htag
    rw [openBytes_encrypt hne hdvd]
    constructor
    · rintro plaintext rfl
      rw [Padding.unpad_pad]
      rfl
    · intro hpad
      rw [Padding.unpad_of_not_endsInPad hpad]
      rfl

end Sealer

end EncryptThenMac
