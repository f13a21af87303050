import EncryptThenMac.Proofs.Utf8
import EncryptThenMac.Proofs.WrittenEntry
import EncryptThenMac.Variant.Choice

/-!
# Two readers of a name

A variant's name is read in two places, and not by the same rule. Where somebody types it, capital
and small letters are the same; in a configuration it is spelled exactly. This module says what the
first reader accepts, without characters and without a search, and then that the second one accepts
less, and nothing else.

The comparison is one of bytes. A letter is one of the 26 from A to Z, and all other bytes stand for
themselves, whatever case their characters have elsewhere: `Utf8.SameUpToCase`. The reader compares
characters, and that this is the same is a fact about UTF-8. All letters are in the first half of
the bytes, and the sequence of a character beyond it has no byte from there
(`Utf8.Sequence.le_of_mem`). So to make the bytes of a text small is to make its characters small
(`Utf8.map_small_encode`), and a text is determined by its bytes.

A search for a name finds the first that fits, so that what it finds could depend on the order in
which the names are tried. It does not, since no two names are the same up to case
(`eq_of_sameUpToCase`); with this every search through all variants is one and the same
(`find?_eq_some_iff`).

What is said of a text is one structure for each reader, `TypedName` and `ConfiguredName`, and how
the readers are nested is `NestedReaders`.
-/

namespace EncryptThenMac

/-! ## The case of letters, in bytes -/

namespace Utf8

/-- A byte, with a small letter for a capital one from A to Z. -/
def small (byte : UInt8) : UInt8 :=
  if 0x41 ≤ byte.toNat ∧ byte.toNat ≤ 0x5A then byte + 0x20 else byte

/-- Two texts have the same bytes, up to the case of the letters from A to Z. -/
def SameUpToCase (s t : String) : Prop :=
  (encode s).map small = (encode t).map small

instance (s t : String) : Decidable (SameUpToCase s t) :=
  inferInstanceAs (Decidable (_ = _))

theorem toNat_small (byte : UInt8) :
    (small byte).toNat =
      if 0x41 ≤ byte.toNat ∧ byte.toNat ≤ 0x5A then byte.toNat + 0x20 else byte.toNat := by
  unfold small
  split
  · have hdistance : (0x20 : UInt8).toNat = 0x20 := rfl
    rw [UInt8.toNat_add]
    exact Nat.mod_eq_of_lt (by omega)
  · rfl

theorem toNat_toLower (c : Char) :
    c.toLower.toNat = if 0x41 ≤ c.toNat ∧ c.toNat ≤ 0x5A then c.toNat + 0x20 else c.toNat := by
  unfold Char.toLower
  split
  · next h =>
    have hupper : 0x41 ≤ c.toNat ∧ c.toNat ≤ 0x5A := h
    have hval : c.val.toNat ≤ 0x5A := hupper.2
    have hdistance : (0x20 : UInt32).toNat = 0x20 := rfl
    rw [if_pos hupper]
    show (c.val + 0x20).toNat = c.val.toNat + 0x20
    rw [UInt32.toNat_add]
    exact Nat.mod_eq_of_lt (by omega)
  · next h => exact (if_neg h).symm

theorem toLower_of_not_capital {c : Char} (h : ¬ (0x41 ≤ c.toNat ∧ c.toNat ≤ 0x5A)) :
    c.toLower = c := by
  rw [← Char.toNat_inj, toNat_toLower]
  exact if_neg h

/-- The bytes of one character are made small as the character is. -/
theorem map_small_utf8EncodeChar (c : Char) :
    (String.utf8EncodeChar c).map small = String.utf8EncodeChar c.toLower := by
  -- Either the character is its one byte, or neither it nor a byte of it is a letter.
  by_cases h : c.toNat < 0x80
  · have hlower : c.toLower.toNat < 0x80 := by
      rw [toNat_toLower]
      split <;> omega
    rw [utf8EncodeChar_of_lt h, utf8EncodeChar_of_lt hlower, List.map_singleton]
    congr 1
    rw [← UInt8.toNat_inj, toNat_small, UInt8.toNat_ofNat', UInt8.toNat_ofNat', toNat_toLower,
      Nat.mod_eq_of_lt (by omega)]
    split <;> omega
  · rw [toLower_of_not_capital (by omega)]
    refine (List.map_congr_left fun byte hbyte => ?_).trans (List.map_id _)
    have hbyte := (sequence_utf8EncodeChar c).le_of_mem (by omega) byte hbyte
    exact if_neg (by omega)

theorem map_small_encode (s : String) :
    (encode s).map small = encode (String.ofList (s.toList.map Char.toLower)) := by
  rw [encode, encode, String.toList_ofList, List.map_flatMap, List.flatMap_map]
  simp only [map_small_utf8EncodeChar]

/-- To compare bytes is to compare characters, up to the case of the same 26 letters. -/
theorem sameUpToCase_iff {s t : String} :
    SameUpToCase s t ↔ s.toList.map Char.toLower = t.toList.map Char.toLower := by
  rw [SameUpToCase, map_small_encode, map_small_encode]
  constructor
  · intro h
    exact String.ofList_injective (encode_injective h)
  · intro h
    rw [h]

end Utf8

namespace Variant

variable {s : String} {variant variant' : Variant}

/-! ## Names that somebody typed -/

theorem sameLetters_iff {t : String} : sameLetters t s = true ↔ Utf8.SameUpToCase s t := by
  rw [Utf8.sameUpToCase_iff, sameLetters, beq_iff_eq, eq_comm]

/-- No two names are the same up to case. -/
theorem eq_of_sameUpToCase (h : Utf8.SameUpToCase s variant.name)
    (h' : Utf8.SameUpToCase s variant'.name) : variant = variant' := by
  have hnames : Utf8.SameUpToCase variant.name variant'.name := h.symm.trans h'
  revert hnames
  cases variant <;> cases variant' <;> decide

/-- **A search through all variants, in any order**, finds the one whose name it is. -/
theorem find?_eq_some_iff {order : List Variant} (horder : ∀ v, v ∈ order) :
    order.find? (fun v => sameLetters v.name s) = some variant ↔
      Utf8.SameUpToCase s variant.name := by
  constructor
  · intro h
    have hfits := List.find?_some h
    exact sameLetters_iff.mp hfits
  · intro h
    have hfits : sameLetters variant.name s = true := sameLetters_iff.mpr h
    cases hfound : order.find? fun v => sameLetters v.name s with
    | none => exact absurd hfits (List.find?_eq_none.mp hfound variant (horder variant))
    | some found =>
      have hfound := List.find?_some hfound
      rw [eq_of_sameUpToCase (sameLetters_iff.mp hfound) h]

theorem ofName?_eq_some_iff : ofName? s = some variant ↔ Utf8.SameUpToCase s variant.name :=
  find?_eq_some_iff mem_all

theorem ofName_eq_ok_iff : ofName s = .ok variant ↔ Utf8.SameUpToCase s variant.name := by
  rw [← ofName?_eq_some_iff, ofName]
  cases ofName? s with
  | none => simp
  | some found => simp

theorem ofName_eq_error_iff {error : Error} :
    ofName s = .error error ↔
      error = .unknownAlgorithm s ∧ ∀ v : Variant, ¬ Utf8.SameUpToCase s v.name := by
  have hnone : (∀ v : Variant, ¬ Utf8.SameUpToCase s v.name) ↔ ofName? s = none := by
    rw [Option.eq_none_iff_forall_ne_some]
    exact forall_congr' fun v => not_congr ofName?_eq_some_iff.symm
  rw [hnone, ofName]
  cases ofName? s with
  | none => simp [eq_comm]
  | some found => simp

/-- The characters of a name, in capital letters or small ones. -/
theorem isAlphanum_of_sameUpToCase {c : Char} (h : Utf8.SameUpToCase s variant.name)
    (hc : c ∈ s.toList) : c.isAlphanum ∨ c = '-' := by
  have hmem : c.toLower ∈ variant.name.toList.map Char.toLower := by
    rw [← Utf8.sameUpToCase_iff.mp h]
    exact List.mem_map_of_mem hc
  have hnames : (variant.name.toList.map Char.toLower).all
      (fun d => d.isAlphanum || d == '-') = true := by
    cases variant <;> decide
  -- A capital letter is a letter, and all other characters are their own small ones.
  by_cases hcapital : 0x41 ≤ c.toNat ∧ c.toNat ≤ 0x5A
  · have hupper : c.isUpper = true := decide_eq_true hcapital
    left
    show ((c.isUpper || c.isLower) || c.isDigit) = true
    rw [hupper]
    rfl
  · rw [Utf8.toLower_of_not_capital hcapital] at hmem
    simpa using List.all_eq_true.mp hnames c hmem

/-! ## Names in a configuration -/

section

variable {text : String} {document : Toml.Table}

theorem ofText_of_string (hparse : Toml.Document.parse? text = some document)
    (hentry : document.lookup "algorithm" = some (.string s)) :
    Template.ofText text = ((Template.named s).map Template.mk).mapError Error.config := by
  rw [Template.ofText_of_parse? hparse, Template.ofTable, hentry]
  rfl

theorem ofText_eq_ok_iff (hparse : Toml.Document.parse? text = some document)
    (hentry : document.lookup "algorithm" = some (.string s)) :
    Template.ofText text = .ok ⟨variant⟩ ↔ s = variant.name := by
  rw [ofText_of_string hparse hentry, Template.mapError_eq_ok_iff, Template.map_mk_eq_ok_iff,
    Template.named_eq_ok_iff]

/-- Another spelling of one name is not the spelling of another. -/
theorem ofText_of_other_spelling (hparse : Toml.Document.parse? text = some document)
    (hentry : document.lookup "algorithm" = some (.string s)) (hname : ofName s = .ok variant)
    (hspelling : s ≠ variant.name) :
    Template.ofText text = .error (.config (.unknownVariant s)) := by
  have hnone : ∀ v : Variant, s ≠ v.name := by
    rintro v rfl
    have hsame : Utf8.SameUpToCase v.name variant.name := ofName_eq_ok_iff.mp hname
    exact hspelling (congrArg name (eq_of_sameUpToCase rfl hsame))
  rw [ofText_of_string hparse hentry, Template.named_of_unknown hnone]
  rfl

end

theorem message_unknownVariant (s : String) :
    (Error.config (.unknownVariant s)).message =
      "Config file error: unknown variant `" ++ s ++
        "`, expected one of `A128CBC-HS256`, `A192CBC-HS384`, `A256CBC-HS512`" := by
  have hfront : "Config file error: unknown variant `" =
      "Config file error: " ++ "unknown variant `" := by decide
  have hback : "`, expected one of `A128CBC-HS256`, `A192CBC-HS384`, `A256CBC-HS512`" =
      "`, expected one of " ++ Template.Fault.offeredNames := by decide
  show "Config file error: " ++
    ("unknown variant `" ++ s ++ "`, expected one of " ++ Template.Fault.offeredNames) = _
  rw [hfront, hback]
  simp only [String.append_assoc]

/-- A name in any spelling needs no escape between quotes. -/
theorem exists_document (h : ofName s = .ok variant) :
    ∃ text, Toml.Document.parse? text = some [("algorithm", .string s)] := by
  have hbasic : ∀ c ∈ s.toList, Toml.Text.isBasicChar c := by
    intro c hc
    apply Toml.Text.isBasicChar_of_isBareChar
    rcases isAlphanum_of_sameUpToCase (ofName_eq_ok_iff.mp h) hc with halphanum | rfl
    · simp [Toml.Text.isBareChar, halphanum]
    · decide
  have hparse : Toml.Document.parse? ("algorithm" ++ " = \"" ++ s ++ "\"\n") =
      some [("algorithm", .string s)] :=
    Toml.Document.parse?_entry (by decide) (List.all_eq_true.mp (by decide)) hbasic
  exact ⟨_, hparse⟩

/-! ## Both readers -/

/-- What the reader of typed names makes of a text. -/
structure TypedName (s : String) : Prop where
  accepted : ∀ variant, ofName s = .ok variant ↔ Utf8.SameUpToCase s variant.name
  unique : ∀ variant variant' : Variant, Utf8.SameUpToCase s variant.name →
    Utf8.SameUpToCase s variant'.name → variant = variant'
  anyOrder : ∀ order : List Variant, (∀ v, v ∈ order) →
    order.find? (fun v => sameLetters v.name s) = ofName? s
  -- Everything else is given back as it was.
  refused : ∀ error, ofName s = .error error ↔
    error = .unknownAlgorithm s ∧ ∀ v : Variant, ¬ Utf8.SameUpToCase s v.name
  -- A blank, or a character that is like a letter only where other alphabets have a case too.
  otherCharacter : ∀ c ∈ s.toList, ¬ (c.isAlphanum ∨ c = '-') →
    ofName s = .error (.unknownAlgorithm s)

theorem typedName (s : String) : TypedName s where
  accepted _ := ofName_eq_ok_iff
  unique _ _ := eq_of_sameUpToCase
  anyOrder := by
    intro order horder
    apply Option.ext
    intro variant
    rw [find?_eq_some_iff horder, ofName?_eq_some_iff]
  refused _ := ofName_eq_error_iff
  otherCharacter := by
    intro c hc hother
    refine ofName_eq_error_iff.mpr ⟨rfl, fun v hsame => ?_⟩
    exact hother (isAlphanum_of_sameUpToCase hsame hc)

/-- What is made of a configuration, compared with what the reader of typed names makes of the name
in it. -/
structure ConfiguredName (text s : String) : Prop where
  accepted : ∀ variant, Template.ofText text = .ok ⟨variant⟩ ↔
    ofName s = .ok variant ∧ toString variant = s
  refused : ∀ variant, ofName s = .ok variant → s ≠ variant.name →
    Template.ofText text = .error (.config (.unknownVariant s))
  -- The name is quoted as it is written.
  message : (Error.config (.unknownVariant s)).message =
    "Config file error: unknown variant `" ++ s ++
      "`, expected one of `A128CBC-HS256`, `A192CBC-HS384`, `A256CBC-HS512`"

theorem configuredName_of_string {text : String} {document : Toml.Table}
    (hparse : Toml.Document.parse? text = some document)
    (hentry : document.lookup "algorithm" = some (.string s)) : ConfiguredName text s where
  accepted := by
    intro variant
    rw [ofText_eq_ok_iff hparse hentry, toString_eq_name]
    constructor
    · rintro rfl
      exact ⟨ofName_eq_ok_iff.mpr rfl, rfl⟩
    · rintro ⟨_, hname⟩
      exact hname.symm
  refused _ := ofText_of_other_spelling hparse hentry
  message := message_unknownVariant s

/-- What becomes of a text that is typed, and of the same text in a configuration. -/
structure NestedReaders (s : String) : Prop where
  typed : TypedName s
  configured : ∀ text document, Toml.Document.parse? text = some document →
    document.lookup "algorithm" = some (.string s) → ConfiguredName text s
  -- Whatever is accepted when typed can be written in a configuration, if only to be refused.
  written : ∀ variant, ofName s = .ok variant →
    ∃ text, Toml.Document.parse? text = some [("algorithm", .string s)]

/-- **A configuration takes fewer spellings of a name, and no other meaning.** A name that somebody
typed is that of the variant whose registered name has the same bytes up to the case of the letters
from A to Z. There is one such variant at most, so that it does not matter in which order they are
tried. Everything else is refused and given back as it was. So is any text with a character that is
neither one of these letters nor a digit nor a hyphen, such as a blank in front of a name. In a
configuration exactly the registered spelling is accepted, and it means the same there. All other
spellings of the name are refused, with the one that is written in the message; and each of them can
be written. -/
theorem name_readers_are_nested (s : String) : NestedReaders s where
  typed := typedName s
  configured _ _ := configuredName_of_string
  written _ := exists_document

/-- A long s for an S, a blank in front, another order, and a spelling in small letters, which one
reader takes and the other does not. -/
theorem name_readers_are_nested_small :
    ofName "A128CBC-H\u017f256" = .error (.unknownAlgorithm "A128CBC-H\u017f256") ∧
    ofName " A128CBC-HS256" = .error (.unknownAlgorithm " A128CBC-HS256") ∧
    [a256cbcHs512, a192cbcHs384, a128cbcHs256].find?
      (fun v => sameLetters v.name "a192cbc-hs384") = ofName? "a192cbc-hs384" ∧
    ofName "a128cbc-hs256" = .ok a128cbcHs256 ∧
    Template.ofText "algorithm = \"a128cbc-hs256\"\n" =
      .error (.config (.unknownVariant "a128cbc-hs256")) := by
  have hname : ofName "a128cbc-hs256" = .ok a128cbcHs256 :=
    ((name_readers_are_nested _).typed.accepted _).mpr (by decide)
  have hparse : Toml.Document.parse? "algorithm = \"a128cbc-hs256\"\n" =
      some [("algorithm", .string "a128cbc-hs256")] := by
    rw [show "algorithm = \"a128cbc-hs256\"\n" =
      "algorithm" ++ " = \"" ++ "a128cbc-hs256" ++ "\"\n" by decide]
    exact Toml.Document.parse?_entry (by decide) (List.all_eq_true.mp (by decide))
      (List.all_eq_true.mp (by decide))
  refine ⟨?_, ?_, ?_, hname, ?_⟩
  · exact (name_readers_are_nested _).typed.otherCharacter '\u017f' (by decide) (by decide)
  · exact (name_readers_are_nested _).typed.otherCharacter ' ' (by decide) (by decide)
  · exact (name_readers_are_nested _).typed.anyOrder _ (fun v => by cases v <;> decide)
  · exact ((name_readers_are_nested _).configured _ _ hparse rfl).refused _ hname (by decide)

end Variant

end EncryptThenMac
