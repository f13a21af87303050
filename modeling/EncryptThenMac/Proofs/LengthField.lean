import EncryptThenMac.Proofs.Tampering

/-!
# Where the length field ends

The length field holds the length of the associated data in bits, modulo `2 ^ 64`. In bytes that
is the length modulo `2 ^ 61` (`lengthField_eq_iff`), so that the field is the length up to and
without `2 ^ 61` bytes, and *at* `2 ^ 61` bytes it is zero, the field of no associated data at
all. Below the bound the authenticated byte string has one reading
(`Tag.authenticated_injective`). This file is about the bound itself, and there it has two.

* `authenticated_eq_iff_of_le`: up to and with the bound, the two readings differ only as
  `Reread` says: in one of them the associated data reach the bound, and in the other the same
  bytes are a vector and a body, and there are no associated data. Every byte string with
  associated data at the bound has such a second reading (`exists_reread`). All that is true of
  the field up to there is in `readings_up_to_bound`, and `zeros_read_twice` is a case.
* `openBytes_append_of_full`: what follows for envelopes. Where one opens for associated data at
  the bound, the associated data and then the envelope are an envelope that opens for none. Its
  tag is right because the byte string is the same, and its padding because decryption of the
  last blocks looks back no further than the vector, which now stands in the body. A forger
  needs no key for this, only that much to send.
-/

namespace EncryptThenMac

namespace Tag

variable {aad aad' iv iv' body body' : Bytes}

/-! ## The field -/

theorem ofBigEndian_lengthField_eq_iff :
    Bytes.ofBigEndian (lengthField aad) = 8 * aad.length ↔ aad.length < 2 ^ 61 := by
  rw [ofBigEndian_lengthField]
  omega

/-! ## The second reading -/

/-- A second reading, without associated data, of what has associated data at the bound. -/
structure Reread (aad iv body aad' iv' body' : Bytes) : Prop where
  full : aad.length = 2 ^ 61
  empty : aad' = []
  same : aad ++ iv ++ body = iv' ++ body'

theorem Reread.authenticated_eq (h : Reread aad iv body aad' iv' body') :
    authenticated aad iv body = authenticated aad' iv' body' := by
  obtain ⟨hfull, rfl, hsame⟩ := h
  have hfield : lengthField aad = lengthField [] := lengthField_eq_iff.mpr (by rw [hfull]; rfl)
  rw [authenticated, authenticated, hsame, hfield, List.nil_append]

/-- The first sixteen bytes of the associated data are as good as any vector. -/
theorem exists_reread (hfull : aad.length = 2 ^ 61) (iv body : Bytes) :
    ∃ iv' body' : Bytes, iv'.length = Block.size ∧ Reread aad iv body [] iv' body' := by
  refine ⟨(aad ++ iv ++ body).take Block.size, (aad ++ iv ++ body).drop Block.size, ?_,
    ⟨hfull, rfl, (List.take_append_drop _ _).symm⟩⟩
  rw [List.length_take, List.length_append, List.length_append, hfull]
  exact Nat.min_eq_left (by simp only [Block.size]; omega)

theorem authenticated_eq_iff_of_le (haad : aad.length ≤ 2 ^ 61) (haad' : aad'.length ≤ 2 ^ 61)
    (hiv : iv.length = iv'.length) :
    authenticated aad iv body = authenticated aad' iv' body' ↔
      (aad = aad' ∧ iv = iv' ∧ body = body') ∨ Reread aad iv body aad' iv' body' ∨
        Reread aad' iv' body' aad iv body := by
  constructor
  · intro h
    obtain ⟨hparts, hfield⟩ := List.append_inj' h (by simp [lengthField])
    rw [lengthField_eq_iff] at hfield
    -- One remainder: the lengths are equal, or they are the two ends of the range.
    have hcases : aad.length = aad'.length ∨ (aad.length = 2 ^ 61 ∧ aad'.length = 0) ∨
        (aad'.length = 2 ^ 61 ∧ aad.length = 0) := by omega
    rcases hcases with hlen | ⟨hfull, hempty⟩ | ⟨hfull, hempty⟩
    · exact Or.inl (eq_of_authenticated_eq hlen hiv h)
    · obtain rfl := List.eq_nil_of_length_eq_zero hempty
      exact Or.inr (Or.inl ⟨hfull, rfl, hparts⟩)
    · obtain rfl := List.eq_nil_of_length_eq_zero hempty
      exact Or.inr (Or.inr ⟨hfull, rfl, hparts.symm⟩)
  · rintro (⟨rfl, rfl, rfl⟩ | h | h)
    · rfl
    · exact h.authenticated_eq
    · exact h.authenticated_eq.symm

theorem Reread.compute_eq_compute (h : Reread aad iv body aad' iv' body') (variant : Variant)
    (macKey : Bytes) :
    compute variant macKey aad iv body = compute variant macKey aad' iv' body' := by
  rw [compute_eq, compute_eq, h.authenticated_eq]

/-- **One reading, or the two at the bound.** For associated data of up to `2 ^ 61` bytes and
vectors of sixteen, a byte string is authenticated for two readings only if they are the same or
the one is a `Reread` of the other. The field is the length in bits but at the bound; and at the
bound there always is a second reading, for which no key and no variant has another tag. -/
theorem readings_up_to_bound (haad : aad.length ≤ 2 ^ 61) (haad' : aad'.length ≤ 2 ^ 61)
    (hiv : iv.length = Block.size) (hiv' : iv'.length = Block.size) :
    (authenticated aad iv body = authenticated aad' iv' body' ↔
      (aad = aad' ∧ iv = iv' ∧ body = body') ∨ Reread aad iv body aad' iv' body' ∨
        Reread aad' iv' body' aad iv body) ∧
    (Bytes.ofBigEndian (lengthField aad) = 8 * aad.length ↔ aad.length ≠ 2 ^ 61) ∧
    (aad.length = 2 ^ 61 → ∃ other rest : Bytes, other.length = Block.size ∧
      Reread aad iv body [] other rest ∧ ∀ variant macKey,
        compute variant macKey aad iv body = compute variant macKey [] other rest) := by
  refine ⟨authenticated_eq_iff_of_le haad haad' (hiv.trans hiv'.symm), ?_, ?_⟩
  · rw [ofBigEndian_lengthField_eq_iff]
    omega
  · intro hfull
    obtain ⟨other, rest, hother, hreread⟩ := exists_reread hfull iv body
    exact ⟨other, rest, hother, hreread, hreread.compute_eq_compute⟩

/-- With one byte of associated data there is one reading; with `2 ^ 61` there are two. -/
theorem readings_up_to_bound_of_zeros :
    authenticated [0] (List.replicate 16 0) [0] ≠ authenticated [] (List.replicate 16 0) [0, 0] ∧
    ∃ other rest : Bytes, other.length = Block.size ∧
      Reread (List.replicate (2 ^ 61) 0) (List.replicate 16 0) [0] [] other rest ∧
      ∀ variant macKey,
        compute variant macKey (List.replicate (2 ^ 61) 0) (List.replicate 16 0) [0] =
          compute variant macKey [] other rest := by
  have hiv : (List.replicate 16 (0 : UInt8)).length = Block.size := List.length_replicate
  have hempty : ([] : Bytes).length ≤ 2 ^ 61 := by decide
  constructor
  · intro h
    have hone : ([0] : Bytes).length ≤ 2 ^ 61 := by decide
    rcases (readings_up_to_bound hone hempty hiv hiv).1.mp h with ⟨haad, _⟩ | hreread | hreread
    · exact absurd haad (by decide)
    · exact absurd hreread.full (by decide)
    · exact absurd hreread.full (by decide)
  · have hfull : (List.replicate (2 ^ 61) (0 : UInt8)).length = 2 ^ 61 := List.length_replicate
    have hreadings := @readings_up_to_bound (List.replicate (2 ^ 61) 0) [] (List.replicate 16 0)
      (List.replicate 16 0) [0] [] (Nat.le_of_eq hfull) hempty hiv hiv
    exact hreadings.2.2 hfull

/-- As many zeros as the bound allows, before a vector and a body of zeros: the same byte string,
with the same tags, is of a longer body without associated data. -/
theorem zeros_read_twice :
    (List.replicate (2 ^ 61) (0 : UInt8)).length ≤ 2 ^ 61 ∧
    (List.replicate 16 (0 : UInt8)).length = Block.size ∧
    authenticated (List.replicate (2 ^ 61) 0) (List.replicate 16 0) (List.replicate 16 0) =
      authenticated [] (List.replicate 16 0) (List.replicate (2 ^ 61 + 16) 0) ∧
    List.replicate (2 ^ 61) (0 : UInt8) ≠ [] ∧
    lengthField (List.replicate (2 ^ 61) 0) = List.replicate 8 0 ∧
    ∀ variant macKey,
      compute variant macKey (List.replicate (2 ^ 61) 0) (List.replicate 16 0)
          (List.replicate 16 0) =
        compute variant macKey [] (List.replicate 16 0) (List.replicate (2 ^ 61 + 16) 0) := by
  have hlen : ∀ n : Nat, (List.replicate n (0 : UInt8)).length = n := fun n => List.length_replicate
  have hsame : List.replicate (2 ^ 61) (0 : UInt8) ++ List.replicate 16 0 ++ List.replicate 16 0 =
      List.replicate 16 0 ++ List.replicate (2 ^ 61 + 16) 0 := by
    have hcount : 2 ^ 61 + 16 + 16 = 16 + (2 ^ 61 + 16) := by omega
    rw [List.replicate_append_replicate, List.replicate_append_replicate,
      List.replicate_append_replicate, hcount]
  have hreread : Reread (List.replicate (2 ^ 61) 0) (List.replicate 16 0) (List.replicate 16 0) []
      (List.replicate 16 0) (List.replicate (2 ^ 61 + 16) 0) := ⟨hlen _, rfl, hsame⟩
  have hempty : lengthField (List.replicate (2 ^ 61) 0) = lengthField [] :=
    lengthField_eq_iff.mpr (by rw [hlen]; rfl)
  refine ⟨Nat.le_of_eq (hlen _), hlen _, hreread.authenticated_eq, ?_, ?_,
    hreread.compute_eq_compute⟩
  · intro h
    have hzero := congrArg List.length h
    rw [hlen] at hzero
    exact absurd hzero (by decide)
  · rw [hempty]
    decide

end Tag

namespace Sealer

variable {sealer : Sealer}

/-! ## Envelopes -/

/-- Associated data at the bound are a vector and then whole blocks. -/
theorem exists_vector_of_full {aad : Bytes} (hfull : aad.length = 2 ^ 61) :
    ∃ (iv : Block) (rest : Bytes), aad = iv.toBytes ++ rest ∧
      rest.length + Block.size = 2 ^ 61 ∧ Block.size ∣ rest.length := by
  have hroom : Block.size ≤ aad.length := by
    rw [hfull]
    decide
  obtain ⟨iv, rest, htake⟩ := Block.exists_take? hroom
  obtain rfl := Block.eq_of_take? htake
  rw [List.length_append, Block.length_toBytes] at hfull
  have hrest : rest.length = 2 ^ 61 - Block.size := by omega
  refine ⟨iv, rest, rfl, by omega, ?_⟩
  rw [hrest]
  decide

/-- **An envelope can be moved behind its associated data**, if these are at the bound: it then
opens for none, to the same plaintext behind as many other bytes. -/
theorem openBytes_append_of_full {bytes aad plaintext : Bytes} (hfull : aad.length = 2 ^ 61)
    (h : (sealer.openBytes bytes aad).outcome = .ok plaintext) :
    ∃ other : Bytes, other.length = 2 ^ 61 ∧
      sealer.openBytes (aad ++ bytes) [] = .done (other ++ plaintext) := by
  obtain ⟨iv, body, hdecrypt, rfl⟩ := padded_parts_of_openBytes h
  obtain ⟨iv', rest, rfl, hrest, hdvd⟩ := exists_vector_of_full hfull
  -- The vector of the envelope is now a block of the body.
  obtain ⟨other, hother, hpadded⟩ := Cbc.exists_decrypt_behind iv' hdvd hdecrypt
  have hreread : Tag.Reread (iv'.toBytes ++ rest) iv.toBytes body [] iv'.toBytes
      (rest ++ iv.toBytes ++ body) := ⟨hfull, rfl, by simp only [List.append_assoc]⟩
  have hbytes : iv'.toBytes ++ rest ++
      (iv.toBytes ++ body ++ sealer.rightTag (iv'.toBytes ++ rest) iv body) =
        iv'.toBytes ++ (rest ++ iv.toBytes ++ body) ++
          sealer.rightTag [] iv' (rest ++ iv.toBytes ++ body) := by
    rw [rightTag, rightTag, hreread.authenticated_eq]
    simp only [List.append_assoc]
  have hwhole : Block.size ∣ other.length := by
    rw [hother, hrest]
    decide
  obtain ⟨hne, hbody⟩ := Cbc.whole_of_decrypt hpadded
  refine ⟨other, hother.trans hrest, ?_⟩
  rw [hbytes, openBytes_of_parts (length_rightTag _ _ _) hne hbody (openParts_of_right_tag hpadded),
    ← Padding.pad_append hwhole, Padding.unpad_pad]
  rfl

end Sealer

end EncryptThenMac
