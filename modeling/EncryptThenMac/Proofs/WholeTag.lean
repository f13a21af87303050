import EncryptThenMac.Tag
import Mathlib.Algebra.Group.Nat.Defs

/-!
# A tag belongs to one message, and is compared whole

A tag is asked for with three byte strings and made from one. The code is fed the associated data,
the vector, the ciphertext and the length field one after the other, and what it remembers of them
is their concatenation. This holds for any number of parts and wherever the cuts fall
(`finish_foldl_update`): inside a block of the hash function, at its border, or with nothing between
two cuts. So the tag is half of one code over one message, whatever the key, and it can tell the
three byte strings apart only as far as the message can. A byte that moves from the vector to the
ciphertext is not noticed at all. One that moves from the associated data to the vector is noticed
in the length field and nowhere else.

A candidate is accepted if it is the tag and refused if it is anything else (`verify_eq_decide`).
There is no third outcome. A prefix of the tag, the tag with something behind it, and the whole code
of which the tag is one half are refused for their length alone (`verify_of_other_length`).

So three things are said of a tag, each by a structure: what it is (`IsHalf`), what else it is the
tag of (`SharesTag`), and what passes for it (`ComparedWhole`).
-/

namespace EncryptThenMac

/-! ## A code fed in parts -/

namespace Hmac.Running

variable {h : HashFunction}

theorem foldl_update_ofMessage (key : Bytes) (parts : List Bytes) (message : Bytes) :
    parts.foldl update (ofMessage (h := h) key message) =
      ofMessage key (message ++ parts.flatten) := by
  induction parts generalizing message with
  | nil => rw [List.foldl_nil, List.flatten_nil, List.append_nil]
  | cons part parts ih =>
    rw [List.foldl_cons, update_ofMessage, ih, List.flatten_cons, List.append_assoc]

/-- **However a message is cut, its code is the code of the whole.** -/
theorem finish_foldl_update (key : Bytes) (parts : List Bytes) :
    (parts.foldl update (start h key)).finish = code h key parts.flatten := by
  rw [start_eq_ofMessage, foldl_update_ofMessage, List.nil_append, finish_ofMessage]

end Hmac.Running

namespace Tag

variable {variant : Variant} {macKey aad iv ciphertext : Bytes}

/-! ## The left half -/

theorem length_code (variant : Variant) (macKey message : Bytes) :
    (Hmac.code variant.hash macKey message).length = variant.tagSize * 2 := by
  rw [Hmac.code, length_digest]

theorem exists_right_half (variant : Variant) (macKey message : Bytes) :
    ∃ rest, Hmac.code variant.hash macKey message = ofMessage variant macKey message ++ rest ∧
      rest.length = (ofMessage variant macKey message).length := by
  refine ⟨(Hmac.code variant.hash macKey message).drop variant.tagSize, ?_, ?_⟩
  · exact (List.take_append_drop _ _).symm
  · rw [List.length_drop, length_code, length_ofMessage]
    omega

/-! ## What the message tells apart -/

theorem compute_congr {aad' iv' ciphertext' : Bytes}
    (h : authenticated aad' iv' ciphertext' = authenticated aad iv ciphertext) :
    compute variant macKey aad' iv' ciphertext' = compute variant macKey aad iv ciphertext := by
  rw [compute_eq, compute_eq, h]

theorem authenticated_of_append_eq {iv' ciphertext' : Bytes}
    (h : iv' ++ ciphertext' = iv ++ ciphertext) :
    authenticated aad iv' ciphertext' = authenticated aad iv ciphertext := by
  rw [authenticated, List.append_assoc aad, h, ← List.append_assoc, ← authenticated]

/-- Behind the associated data and the vector, wherever one ends and the other starts, only the
length field depends on it. -/
theorem authenticated_of_aad_append_eq {aad' iv' : Bytes} (h : aad' ++ iv' = aad ++ iv) :
    authenticated aad' iv' ciphertext = aad ++ iv ++ ciphertext ++ lengthField aad' := by
  rw [authenticated, h]

/-! ## Comparing -/

theorem verify_eq_decide {tag : Bytes} (h : compute variant macKey aad iv ciphertext = .ok tag)
    (candidate : Bytes) :
    verify variant macKey aad iv ciphertext candidate = .ok (decide (candidate = tag)) := by
  rw [compute_eq] at h
  obtain rfl := Except.ok.inj h
  rw [verify_eq, Bool.beq_eq_decide_eq, decide_eq_decide.mpr eq_comm]

theorem length_of_compute {tag : Bytes} (h : compute variant macKey aad iv ciphertext = .ok tag) :
    tag.length = variant.tagSize := by
  rw [compute_eq] at h
  obtain rfl := Except.ok.inj h
  exact length_ofMessage _ _ _

theorem verify_of_other_length {candidate : Bytes} (hlen : candidate.length ≠ variant.tagSize) :
    verify variant macKey aad iv ciphertext candidate = .ok false := by
  rw [verify_eq_decide (compute_eq variant macKey aad iv ciphertext), decide_eq_false]
  rintro rfl
  exact hlen (length_ofMessage _ _ _)

/-! ## What is said of a tag -/

/-- A tag, and the other half of the code that it is one half of. -/
structure IsHalf (variant : Variant) (macKey aad iv ciphertext tag rest : Bytes) : Prop where
  computed : compute variant macKey aad iv ciphertext = .ok tag
  length_tag : tag.length = variant.tagSize
  length_rest : rest.length = tag.length
  code : Hmac.code variant.hash macKey
    (aad ++ iv ++ ciphertext ++ Bytes.bigEndian 8 (8 * aad.length % 2 ^ 64)) = tag ++ rest
  -- The message may be fed in any number of parts.
  fed : ∀ parts : List Bytes,
    parts.flatten = aad ++ iv ++ ciphertext ++ Bytes.bigEndian 8 (8 * aad.length % 2 ^ 64) →
    (parts.foldl Hmac.Running.update (Hmac.start variant.hash macKey)).finish = tag ++ rest

/-- What other byte strings have for a tag, if their message is the same up to the length field. -/
structure SharesTag (variant : Variant) (macKey aad iv ciphertext tag : Bytes) : Prop where
  message : ∀ aad' iv' ciphertext',
    authenticated aad' iv' ciphertext' = authenticated aad iv ciphertext →
    compute variant macKey aad' iv' ciphertext' = .ok tag
  -- The border between vector and ciphertext is nowhere in the message.
  movedFromVector : ∀ iv' ciphertext', iv' ++ ciphertext' = iv ++ ciphertext →
    compute variant macKey aad iv' ciphertext' = .ok tag
  -- The border behind the associated data is in the length field, and nowhere else.
  movedFromAad : ∀ aad' iv', aad' ++ iv' = aad ++ iv →
    compute variant macKey aad' iv' ciphertext =
      .ok (ofMessage variant macKey
        (aad ++ iv ++ ciphertext ++ Bytes.bigEndian 8 (8 * aad'.length % 2 ^ 64)))

/-- A candidate is compared whole. -/
structure ComparedWhole (variant : Variant) (macKey aad iv ciphertext tag rest : Bytes) : Prop where
  decided : ∀ candidate,
    verify variant macKey aad iv ciphertext candidate = .ok (decide (candidate = tag))
  part : ∀ n, n < tag.length → verify variant macKey aad iv ciphertext (tag.take n) = .ok false
  longer : ∀ more, more ≠ [] → verify variant macKey aad iv ciphertext (tag ++ more) = .ok false
  wholeCode : verify variant macKey aad iv ciphertext (tag ++ rest) = .ok false
  empty : verify variant macKey aad iv ciphertext [] = .ok false

theorem exists_isHalf (variant : Variant) (macKey aad iv ciphertext : Bytes) :
    ∃ tag rest, IsHalf variant macKey aad iv ciphertext tag rest := by
  have hcompute := compute_eq variant macKey aad iv ciphertext
  obtain ⟨rest, hcode, hrest⟩ :=
    exists_right_half variant macKey (authenticated aad iv ciphertext)
  refine ⟨_, rest, hcompute, length_of_compute hcompute, hrest, hcode, ?_⟩
  intro parts hparts
  rw [Hmac.Running.finish_foldl_update, hparts]
  exact hcode

section

variable {tag rest : Bytes}

theorem sharesTag_of_compute (h : compute variant macKey aad iv ciphertext = .ok tag) :
    SharesTag variant macKey aad iv ciphertext tag where
  message := by
    intro aad' iv' ciphertext' hsame
    rw [compute_congr hsame, h]
  movedFromVector := by
    intro iv' ciphertext' hsame
    rw [compute_congr (authenticated_of_append_eq hsame), h]
  movedFromAad := by
    intro aad' iv' hsame
    rw [compute_eq, authenticated_of_aad_append_eq hsame]
    rfl

/-- There is no tag without bytes. -/
theorem IsHalf.length_pos (h : IsHalf variant macKey aad iv ciphertext tag rest) :
    0 < tag.length := by
  rw [h.length_tag]
  cases variant <;> decide

theorem IsHalf.refused (h : IsHalf variant macKey aad iv ciphertext tag rest) {candidate : Bytes}
    (hlen : candidate.length ≠ tag.length) :
    verify variant macKey aad iv ciphertext candidate = .ok false := by
  apply verify_of_other_length
  rwa [← h.length_tag]

/-- The parts of the tag and what goes beyond it have another length, and so has nothing at all. -/
theorem IsHalf.comparedWhole (h : IsHalf variant macKey aad iv ciphertext tag rest) :
    ComparedWhole variant macKey aad iv ciphertext tag rest where
  decided := verify_eq_decide h.computed
  part := by
    intro n hn
    apply h.refused
    rw [List.length_take]
    omega
  longer := by
    intro more hmore
    have hpos := List.length_pos_iff.mpr hmore
    apply h.refused
    rw [List.length_append]
    omega
  wholeCode := by
    have hpos := h.length_pos
    apply h.refused
    rw [List.length_append, h.length_rest]
    omega
  empty := h.refused (Nat.ne_of_lt h.length_pos)

end

/-- **One message, one tag.** For keys and byte strings of every length there is a tag. It is the
left half of the code of the three byte strings and the length field in a row, and cutting this
message elsewhere, into any number of parts, changes nothing. What has the same message has the same
tag. A candidate is the tag or is refused, and never an error. -/
theorem one_message_one_tag (variant : Variant) (macKey aad iv ciphertext : Bytes) :
    ∃ tag rest, IsHalf variant macKey aad iv ciphertext tag rest ∧
      SharesTag variant macKey aad iv ciphertext tag ∧
      ComparedWhole variant macKey aad iv ciphertext tag rest := by
  obtain ⟨tag, rest, hhalf⟩ := exists_isHalf variant macKey aad iv ciphertext
  exact ⟨tag, rest, hhalf, sharesTag_of_compute hhalf.computed, hhalf.comparedWhole⟩

end Tag

end EncryptThenMac
