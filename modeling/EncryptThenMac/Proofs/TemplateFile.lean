import EncryptThenMac.Proofs.TemplateEntry
import EncryptThenMac.Proofs.Utf8

/-!
# A file is read like its text

There are two ways to a template in a configuration: from a text, and from a directory that may hold
a file with a text. The second one has more ways to fail, and one way to succeed without a text. A
directory is told apart here into the cases that decide: the entry of the one name that matters is
missing, is a directory, is a file whose bytes are no text, or is a file with a text. They exclude
each other and there is no fifth, because a file has a text exactly if its bytes are well-formed
(`Utf8.wellFormed_iff`). Each of the first three has one outcome, and in the last one the outcome
is that of the text, with the path in front of a fault.

Only a missing entry stands for the default. Whatever is there and cannot be read is reported.

What is said of a file with a text, of a file and of a directory is one structure each: `ReadsLike`,
`FileOutcome` and `LoadOutcome`.
-/

namespace EncryptThenMac

theorem Directory.entry?_present_eq_none_iff {entries : List (String × Entry)} {name : String} :
    entry? (present entries) name = none ↔ ∀ entry ∈ entries, entry.1 ≠ name := by
  show entries.lookup name = none ↔ _
  rw [List.lookup_eq_none_iff]
  exact forall₂_congr fun entry _ => bne_iff_ne.trans ne_comm

namespace Template

variable {path : String} {directory : Directory}

/-! ## The four cases -/

theorem load_of_missing (h : directory.entry? fileName = none) :
    load path directory = .ok default := by
  rw [load, h]

theorem load_of_directory (h : directory.entry? fileName = some .directory) :
    load path directory = .error (.file .isDirectory) := by
  rw [load, h]

theorem load_of_not_wellFormed {content : Bytes}
    (h : directory.entry? fileName = some (.file content)) (hcontent : ¬ Utf8.WellFormed content) :
    load path directory = .error (.file .notUtf8) := by
  simp only [load, h, Utf8.textOfUtf8?_eq_none_iff.mpr hcontent]

theorem load_of_text {text : String}
    (h : directory.entry? fileName = some (.file (Utf8.encode text))) :
    load path directory =
      (read text).mapError fun fault => .config (.inFile (filePath path) fault) :=
  load_file h (Utf8.textOfUtf8?_eq_some_iff.mpr rfl)

theorem load_eq_ok_iff {text : String} {template : Template}
    (h : directory.entry? fileName = some (.file (Utf8.encode text))) :
    load path directory = .ok template ↔ ofText text = .ok template := by
  rw [load_of_text h, ofText, mapError_eq_ok_iff, mapError_eq_ok_iff]

/-- Where there is a template, it is the default for want of an entry, or that of a text. -/
theorem entry_of_load {template : Template} (h : load path directory = .ok template) :
    (template = default ∧ directory.entry? fileName = none) ∨
      ∃ text, directory.entry? fileName = some (.file (Utf8.encode text)) ∧
        ofText text = .ok template := by
  cases hentry : directory.entry? fileName with
  | none =>
    rw [load_of_missing hentry] at h
    exact .inl ⟨(Except.ok.inj h).symm, rfl⟩
  | some entry =>
    right
    cases entry with
    | directory =>
      rw [load_of_directory hentry] at h
      exact nomatch h
    | file content =>
      by_cases hcontent : Utf8.WellFormed content
      · obtain ⟨text, rfl⟩ := Utf8.wellFormed_iff.mp hcontent
        exact ⟨text, rfl, (load_eq_ok_iff hentry).mp h⟩
      · rw [load_of_not_wellFormed hentry hcontent] at h
        exact nomatch h

/-! ## A file with a text -/

/-- The fault that a text has is the fault of its file. -/
theorem load_of_fault {text : String} {error : Error}
    (h : directory.entry? fileName = some (.file (Utf8.encode text)))
    (htext : ofText text = .error error) :
    ∃ fault, error = .config fault ∧
      load path directory = .error (.config (.inFile (filePath path) fault)) := by
  rw [load_of_text h]
  rw [ofText] at htext
  cases hread : read text with
  | ok found =>
    rw [hread] at htext
    cases htext
  | error fault =>
    rw [hread] at htext
    exact ⟨fault, (Except.error.inj htext).symm, rfl⟩

theorem message_inFile (path : String) (fault : Fault) :
    (Error.config (.inFile path fault)).message =
      "Config file error: " ++ ("Failed to parse " ++ path ++ ": ") ++ fault.reason := by
  show "Config file error: " ++ ("Failed to parse " ++ path ++ ": " ++ fault.reason) = _
  exact String.append_assoc.symm

/-- A file is read like a text. -/
structure ReadsLike (path : String) (directory : Directory) (text : String) : Prop where
  template : ∀ template, load path directory = .ok template ↔ ofText text = .ok template
  -- The fault of the text, with the path of the file.
  fault : ∀ error, ofText text = .error error → ∃ fault, error = .config fault ∧
    load path directory = .error (.config (.inFile (filePath path) fault))
  -- The two are worded alike, but for the path behind the common words.
  message : ∀ fault, (Error.config fault).message = "Config file error: " ++ fault.reason ∧
    (Error.config (.inFile (filePath path) fault)).message =
      "Config file error: " ++ ("Failed to parse " ++ filePath path ++ ": ") ++ fault.reason

theorem readsLike_of_text {text : String}
    (h : directory.entry? fileName = some (.file (Utf8.encode text))) :
    ReadsLike path directory text where
  template _ := load_eq_ok_iff h
  fault _ := load_of_fault h
  message fault := ⟨rfl, message_inFile (filePath path) fault⟩

/-! ## Files and directories -/

/-- What a file gives, by its bytes. -/
structure FileOutcome (path : String) (directory : Directory) (content : Bytes) : Prop where
  noText : ¬ Utf8.WellFormed content → load path directory = .error (.file .notUtf8)
  -- Behind a text, a sequence that is too long or stands for no code point. What follows it cannot
  -- mend it.
  faulty : ∀ front number sequence rest, Utf8.Sequence number sequence →
    ¬ Utf8.Encodes number sequence → content = Utf8.encode front ++ sequence ++ rest →
    load path directory = .error (.file .notUtf8)
  -- Behind a text, a sequence that is cut off.
  cut : ∀ front number cut missing, Utf8.Sequence number (cut ++ missing) → cut ≠ [] →
    missing ≠ [] → content = Utf8.encode front ++ cut →
    load path directory = .error (.file .notUtf8)
  text : ∀ text, content = Utf8.encode text → ReadsLike path directory text

theorem fileOutcome_of_entry {content : Bytes}
    (h : directory.entry? fileName = some (.file content)) : FileOutcome path directory content where
  noText := load_of_not_wellFormed h
  faulty := by
    rintro front number sequence rest hsequence hfault rfl
    exact load_of_not_wellFormed h (Utf8.not_wellFormed_of_faulty front hsequence hfault)
  cut := by
    rintro front number cut missing hsequence hcut hmissing rfl
    exact load_of_not_wellFormed h (Utf8.not_wellFormed_of_cut front hsequence hcut hmissing)
  text := by
    rintro text rfl
    exact readsLike_of_text h

/-- What loading gives, by what is in the directory. -/
structure LoadOutcome (path : String) : Prop where
  absent : load path .absent = .ok default
  -- Whatever else the directory holds.
  missing : ∀ entries : List (String × Directory.Entry), (∀ entry ∈ entries, entry.1 ≠ fileName) →
    load path (.present entries) = .ok default
  directory : ∀ directory : Directory, directory.entry? fileName = some .directory →
    load path directory = .error (.file .isDirectory)
  file : ∀ (directory : Directory) content, directory.entry? fileName = some (.file content) →
    FileOutcome path directory content
  -- A template is the default for want of an entry, or it is that of a text.
  origin : ∀ (directory : Directory) template, load path directory = .ok template →
    (template = default ∧ directory.entry? fileName = none) ∨
      ∃ text, directory.entry? fileName = some (.file (Utf8.encode text)) ∧
        ofText text = .ok template

/-- **A file is read like its text, and nothing is read from what is no text.** The cases exclude
each other: there is no entry of the name, whatever else there is; there is a directory; there is a
file, and its bytes are no text, as those in which a sequence is too long, stands for no code point
or is cut off; there is a file with a text. Then the template is that of the text, and so is the
fault, whose message has the path in it after the common words. A template is thus never the default
because of what was in the file, unless this is what the text says. -/
theorem loading_agrees_with_the_text (path : String) : LoadOutcome path where
  absent := load_of_missing rfl
  missing _ hentries := load_of_missing (Directory.entry?_present_eq_none_iff.mpr hentries)
  directory _ := load_of_directory
  file _ _ := fileOutcome_of_entry
  origin _ _ := entry_of_load

/-- A surrogate behind a letter, a sequence without its end, and an entry that is not the file. -/
theorem loading_agrees_with_the_text_faulty :
    load "" (.present [(fileName, .file [0x41, 0xED, 0xA0, 0x80])]) = .error (.file .notUtf8) ∧
    load "" (.present [(fileName, .file [0x41, 0xE2, 0x82])]) = .error (.file .notUtf8) ∧
    load "" (.present [("aead-cbc-hmac.toml~", .file [0xFF])]) = .ok default := by
  have hloads := loading_agrees_with_the_text ""
  refine ⟨?_, ?_, ?_⟩
  · have hsequence : Utf8.Sequence 0xD800 [0xED, 0xA0, 0x80] :=
      .three (by decide) (by decide) (by decide) (by decide) (by decide)
    have hfault : ¬ Utf8.Encodes 0xD800 [0xED, 0xA0, 0x80] :=
      fun h => absurd h.isCodePoint (by decide)
    exact (hloads.file _ _ rfl).faulty "A" _ _ [] hsequence hfault rfl
  · have hsequence : Utf8.Sequence 0x20AC ([0xE2, 0x82] ++ [0xAC]) :=
      .three (by decide) (by decide) (by decide) (by decide) (by decide)
    exact (hloads.file _ _ rfl).cut "A" _ _ _ hsequence (by decide) (by decide) rfl
  · exact hloads.missing _ (by decide)

end Template

end EncryptThenMac
