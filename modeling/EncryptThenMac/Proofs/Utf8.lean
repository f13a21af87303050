import EncryptThenMac.Template.Directory

/-!
# Which byte strings are UTF-8

A text is a list of code points, and in UTF-8 each of them becomes a sequence of one to four bytes.
The first byte of a sequence says how many follow it; the others are tails with six bits each. Not
every sequence is one that a text can have. A number can be written in more bytes than it takes,
it can be a surrogate, and it can be too large for a code point. `Encodes` is what is left, and
`WellFormed` is said of a byte string that is a row of such sequences.

The decoder answers for exactly these byte strings, and with the text that they encode
(`textOfUtf8?_eq_some_iff`, `textOfUtf8?_eq_none_iff`). The connection is that among all sequences
of one number there is one of each length at most (`Sequence.eq_of_length_eq`), and that the one a
text has is the shortest (`length_utf8EncodeChar_le`).

A sequence can be told where it starts, without what is behind it (`Sequence.eq_of_append_eq`), so
a faulty one is never the beginning of something else: what is wrong at one place of a byte string
cannot be mended by what follows (`not_wellFormed_of_faulty`, `not_wellFormed_of_cut`).
-/

namespace EncryptThenMac.Utf8

/-! ## Sequences -/

/-- A byte in a sequence other than its first. -/
def IsTail (byte : UInt8) : Prop :=
  0x80 ≤ byte.toNat ∧ byte.toNat < 0xC0

instance (byte : UInt8) : Decidable (IsTail byte) :=
  inferInstanceAs (Decidable (_ ∧ _))

/-- The sequences of a number. Of a first byte the high bits are the length. -/
inductive Sequence (number : Nat) : Bytes → Prop where
  | one {a : UInt8} : a.toNat < 0x80 → number = a.toNat → Sequence number [a]
  | two {a b : UInt8} : 0xC0 ≤ a.toNat → a.toNat < 0xE0 → IsTail b →
      number = (a.toNat - 0xC0) * 64 + (b.toNat - 0x80) → Sequence number [a, b]
  | three {a b c : UInt8} : 0xE0 ≤ a.toNat → a.toNat < 0xF0 → IsTail b → IsTail c →
      number = ((a.toNat - 0xE0) * 64 + (b.toNat - 0x80)) * 64 + (c.toNat - 0x80) →
      Sequence number [a, b, c]
  | four {a b c d : UInt8} : 0xF0 ≤ a.toNat → a.toNat < 0xF8 → IsTail b → IsTail c → IsTail d →
      number = (((a.toNat - 0xF0) * 64 + (b.toNat - 0x80)) * 64 + (c.toNat - 0x80)) * 64 +
        (d.toNat - 0x80) →
      Sequence number [a, b, c, d]

/-- A sequence that a text can have. -/
structure Encodes (number : Nat) (sequence : Bytes) : Prop where
  ofNumber : Sequence number sequence
  shortest : ∀ other, Sequence number other → sequence.length ≤ other.length
  -- Not a surrogate, and at most `0x10FFFF`.
  isCodePoint : number.isValidChar

inductive WellFormed : Bytes → Prop where
  | empty : WellFormed []
  | append {number : Nat} {sequence rest : Bytes} : Encodes number sequence → WellFormed rest →
      WellFormed (sequence ++ rest)

/-- The bytes of a text. -/
def encode (text : String) : Bytes :=
  text.toList.flatMap String.utf8EncodeChar

section

variable {number number' : Nat} {sequence sequence' rest rest' : Bytes}

/-! ## One sequence of each length -/

theorem Sequence.eq_of_length_eq (h : Sequence number sequence) (h' : Sequence number sequence')
    (hlen : sequence.length = sequence'.length) : sequence = sequence' := by
  cases h with
  | one ha hn =>
    cases h' with
    | one ha' hn' =>
      simp only [← UInt8.toNat_inj, List.cons.injEq, and_true]
      omega
    | two | three | four => exact absurd hlen (by simp)
  | two ha ha₂ hb hn =>
    cases h' with
    | two ha' ha₂' hb' hn' =>
      simp only [IsTail, ← UInt8.toNat_inj, List.cons.injEq, and_true] at *
      omega
    | one | three | four => exact absurd hlen (by simp)
  | three ha ha₂ hb hc hn =>
    cases h' with
    | three ha' ha₂' hb' hc' hn' =>
      simp only [IsTail, ← UInt8.toNat_inj, List.cons.injEq, and_true] at *
      omega
    | one | two | four => exact absurd hlen (by simp)
  | four ha ha₂ hb hc hd hn =>
    cases h' with
    | four ha' ha₂' hb' hc' hd' hn' =>
      simp only [IsTail, ← UInt8.toNat_inj, List.cons.injEq, and_true] at *
      omega
    | one | two | three => exact absurd hlen (by simp)

theorem isTail_ofNat (n : Nat) : IsTail (UInt8.ofNat (n % 0x40 + 0x80)) := by
  rw [IsTail, UInt8.toNat_ofNat']
  omega

/-- The sequence that a text has for a character is one of its number. -/
theorem sequence_utf8EncodeChar (c : Char) : Sequence c.toNat (String.utf8EncodeChar c) := by
  have hbound : c.toNat < 0x110000 := by
    rcases c.valid with h | ⟨_, h⟩
    · exact Nat.lt_trans h (by decide)
    · exact h
  have htoNat : c.val.toNat = c.toNat := rfl
  simp only [String.utf8EncodeChar, htoNat]
  split
  · refine .one ?_ ?_ <;> rw [UInt8.toNat_ofNat'] <;> omega
  · split
    · refine .two ?_ ?_ (isTail_ofNat _) ?_ <;> simp only [UInt8.toNat_ofNat'] <;> omega
    · split
      · refine .three ?_ ?_ (isTail_ofNat _) (isTail_ofNat _) ?_ <;>
          simp only [UInt8.toNat_ofNat'] <;> omega
      · refine .four ?_ ?_ (isTail_ofNat _) (isTail_ofNat _) (isTail_ofNat _) ?_ <;>
          simp only [UInt8.toNat_ofNat'] <;> omega

/-- What a sequence of each length can write at most. -/
theorem Sequence.bounds (h : Sequence number sequence) :
    1 ≤ sequence.length ∧ (sequence.length ≤ 1 → number < 0x80) ∧
      (sequence.length ≤ 2 → number < 0x800) ∧ (sequence.length ≤ 3 → number < 0x10000) := by
  cases h <;> simp only [IsTail, List.length_cons, List.length_nil] at * <;> omega

/-- It is the shortest one. -/
theorem length_utf8EncodeChar_le {c : Char} (h : Sequence c.toNat sequence) :
    (String.utf8EncodeChar c).length ≤ sequence.length := by
  have htoNat : c.val.toNat = c.toNat := rfl
  have hbounds := h.bounds
  simp only [String.utf8EncodeChar, htoNat]
  split
  · exact hbounds.1
  · split
    · simp only [List.length_cons, List.length_nil]
      omega
    · split <;> simp only [List.length_cons, List.length_nil] <;> omega

theorem utf8EncodeChar_of_lt {c : Char} (h : c.toNat < 0x80) :
    String.utf8EncodeChar c = [UInt8.ofNat c.toNat] := by
  have hsequence : Sequence c.toNat [UInt8.ofNat c.toNat] := by
    refine .one ?_ ?_ <;> rw [UInt8.toNat_ofNat'] <;> omega
  refine (sequence_utf8EncodeChar c).eq_of_length_eq hsequence (Nat.le_antisymm ?_ ?_)
  · exact length_utf8EncodeChar_le hsequence
  · exact (sequence_utf8EncodeChar c).bounds.1

/-- A sequence for a number beyond the first half of the bytes has no byte from it. -/
theorem Sequence.le_of_mem (h : Sequence number sequence) (hnumber : 0x80 ≤ number) :
    ∀ byte ∈ sequence, 0x80 ≤ byte.toNat := by
  cases h <;> simp only [IsTail, List.mem_cons, List.not_mem_nil, or_false, forall_eq_or_imp,
    forall_eq] at * <;> omega

theorem encodes_iff : Encodes number sequence ↔
    ∃ c : Char, c.toNat = number ∧ sequence = String.utf8EncodeChar c := by
  constructor
  · intro h
    obtain ⟨c, rfl⟩ : ∃ c : Char, c.toNat = number := ⟨Char.ofNatAux number h.isCodePoint, rfl⟩
    have hsequence := sequence_utf8EncodeChar c
    refine ⟨c, rfl, h.ofNumber.eq_of_length_eq hsequence (Nat.le_antisymm ?_ ?_)⟩
    · exact h.shortest _ hsequence
    · exact length_utf8EncodeChar_le h.ofNumber
  · rintro ⟨c, rfl, rfl⟩
    exact ⟨sequence_utf8EncodeChar c, fun _ => length_utf8EncodeChar_le, c.valid⟩

/-! ## Rows of sequences -/

theorem wellFormed_flatMap (chars : List Char) :
    WellFormed (chars.flatMap String.utf8EncodeChar) := by
  induction chars with
  | nil => exact .empty
  | cons c chars ih =>
    rw [List.flatMap_cons]
    exact .append (encodes_iff.mpr ⟨c, rfl, rfl⟩) ih

theorem wellFormed_iff {bytes : Bytes} : WellFormed bytes ↔ ∃ text, bytes = encode text := by
  constructor
  · intro h
    induction h with
    | empty => exact ⟨"", rfl⟩
    | append hsequence _ ih =>
      obtain ⟨c, _, rfl⟩ := encodes_iff.mp hsequence
      obtain ⟨text, rfl⟩ := ih
      refine ⟨String.ofList (c :: text.toList), ?_⟩
      rw [encode, encode, String.toList_ofList, List.flatMap_cons]
  · rintro ⟨text, rfl⟩
    exact wellFormed_flatMap text.toList

/-! ## Decoding -/

theorem toByteArray_eq (text : String) : text.toByteArray = ⟨(encode text).toArray⟩ := by
  apply ByteArray.ext
  rw [← String.utf8Encode_toList, List.utf8Encode, List.data_toByteArray, encode]

theorem textOfUtf8?_eq_some_iff {bytes : Bytes} {text : String} :
    textOfUtf8? bytes = some text ↔ bytes = encode text := by
  rw [textOfUtf8?, String.fromUTF8?]
  constructor
  · intro h
    split at h
    · next hvalid =>
      have hbytes : ByteArray.mk bytes.toArray = ⟨(encode text).toArray⟩ := by
        rw [← toByteArray_eq, ← Option.some.inj h]
        rfl
      exact List.toArray_inj (ByteArray.mk.inj hbytes)
    · exact absurd h (by simp)
  · rintro rfl
    rw [← toByteArray_eq, dif_pos text.isValidUTF8]
    rfl

theorem textOfUtf8?_eq_none_iff {bytes : Bytes} :
    textOfUtf8? bytes = none ↔ ¬ WellFormed bytes := by
  rw [Option.eq_none_iff_forall_ne_some, wellFormed_iff, not_exists]
  exact forall_congr' fun text => not_congr textOfUtf8?_eq_some_iff

theorem encode_injective {s t : String} (h : encode s = encode t) : s = t := by
  have hs : textOfUtf8? (encode s) = some s := textOfUtf8?_eq_some_iff.mpr rfl
  have ht : textOfUtf8? (encode t) = some t := textOfUtf8?_eq_some_iff.mpr rfl
  rw [h, ht] at hs
  exact (Option.some.inj hs).symm

/-! ## Faults stay faults -/

/-- The length that the first byte of a sequence announces. -/
def announced (first : UInt8) : Nat :=
  if first.toNat < 0x80 then 1
  else if first.toNat < 0xE0 then 2
  else if first.toNat < 0xF0 then 3
  else 4

theorem Sequence.exists_first (h : Sequence number sequence) :
    ∃ first tails, sequence = first :: tails ∧ sequence.length = announced first := by
  cases h with
  | @one a ha => exact ⟨a, [], rfl, by rw [announced, if_pos ha]; rfl⟩
  | @two a b ha ha₂ =>
    refine ⟨a, [b], rfl, ?_⟩
    rw [announced, if_neg (by omega), if_pos ha₂]
    rfl
  | @three a b c ha ha₂ =>
    refine ⟨a, [b, c], rfl, ?_⟩
    rw [announced, if_neg (by omega), if_neg (by omega), if_pos ha₂]
    rfl
  | @four a b c d ha =>
    refine ⟨a, [b, c, d], rfl, ?_⟩
    rw [announced, if_neg (by omega), if_neg (by omega), if_neg (by omega)]
    rfl

theorem Sequence.number_eq (h : Sequence number sequence) (h' : Sequence number' sequence) :
    number = number' := by
  cases h <;> cases h' <;> omega

/-- **Where a sequence starts, it also shows where it ends.** -/
theorem Sequence.eq_of_append_eq (h : Sequence number sequence) (h' : Sequence number' sequence')
    (heq : sequence ++ rest = sequence' ++ rest') : sequence = sequence' := by
  obtain ⟨first, tails, hsequence, hlen⟩ := h.exists_first
  obtain ⟨first', tails', hsequence', hlen'⟩ := h'.exists_first
  have hfirst : first = first' := by
    rw [hsequence, hsequence'] at heq
    exact (List.cons.inj heq).1
  exact (List.append_inj heq (by rw [hlen, hlen', hfirst])).1

theorem WellFormed.exists_first {bytes : Bytes} (h : WellFormed bytes) (hbytes : bytes ≠ []) :
    ∃ number sequence rest, bytes = sequence ++ rest ∧ Encodes number sequence ∧
      WellFormed rest := by
  cases h with
  | empty => exact absurd rfl hbytes
  | append hsequence hrest => exact ⟨_, _, _, rfl, hsequence, hrest⟩

theorem wellFormed_append_iff (h : Sequence number sequence) :
    WellFormed (sequence ++ rest) ↔ Encodes number sequence ∧ WellFormed rest := by
  constructor
  · intro hwell
    obtain ⟨first, tails, hfirst, _⟩ := h.exists_first
    obtain ⟨number', sequence', rest', heq, hsequence', hrest'⟩ :=
      hwell.exists_first (by rw [hfirst]; exact List.cons_ne_nil _ _)
    obtain rfl := h.eq_of_append_eq hsequence'.ofNumber heq
    obtain rfl := h.number_eq hsequence'.ofNumber
    obtain rfl := List.append_cancel_left heq
    exact ⟨hsequence', hrest'⟩
  · rintro ⟨hsequence, hrest⟩
    exact .append hsequence hrest

theorem wellFormed_encode_append_iff (front : String) :
    WellFormed (encode front ++ rest) ↔ WellFormed rest := by
  rw [encode]
  induction front.toList with
  | nil => rw [List.flatMap_nil, List.nil_append]
  | cons c chars ih =>
    have hc : Encodes c.toNat (String.utf8EncodeChar c) := encodes_iff.mpr ⟨c, rfl, rfl⟩
    rw [List.flatMap_cons, List.append_assoc, wellFormed_append_iff hc.ofNumber, ih,
      and_iff_right hc]

/-- Behind a text, a sequence that is too long or of no code point. -/
theorem not_wellFormed_of_faulty (front : String) (h : Sequence number sequence)
    (hfault : ¬ Encodes number sequence) : ¬ WellFormed (encode front ++ sequence ++ rest) := by
  rw [List.append_assoc, wellFormed_encode_append_iff, wellFormed_append_iff h]
  exact fun hboth => hfault hboth.1

/-- Behind a text, a part of a sequence and then the end. -/
theorem not_wellFormed_of_cut {cut missing : Bytes} (front : String)
    (h : Sequence number (cut ++ missing)) (hcut : cut ≠ []) (hmissing : missing ≠ []) :
    ¬ WellFormed (encode front ++ cut) := by
  rw [wellFormed_encode_append_iff]
  intro hwell
  obtain ⟨number', sequence', rest', heq, hsequence', _⟩ := hwell.exists_first hcut
  have hmended : cut ++ missing ++ [] = sequence' ++ (rest' ++ missing) := by
    rw [List.append_nil, ← List.append_assoc, ← heq]
  have hwhole := h.eq_of_append_eq hsequence'.ofNumber hmended
  have hlong := congrArg List.length heq
  rw [← hwhole] at hlong
  simp only [List.length_append] at hlong
  exact hmissing (List.length_eq_zero_iff.mp (by omega))

end

end EncryptThenMac.Utf8
