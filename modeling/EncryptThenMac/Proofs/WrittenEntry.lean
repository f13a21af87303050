import EncryptThenMac.Proofs.TemplateEntry

/-!
# An entry is read as it was written

The simplest thing to write in a configuration is a line `key = "text"` in which neither the key
nor the text needs an escape: the key is bare, and the characters of the text stand for themselves.
Such a line is a whole document, and it says what was written and nothing else
(`Toml.Document.parse?_entry`). So there is a document for every plain text under every bare key. A
template writes itself as such a line, and reading it gives the template back
(`Template.ofText_toText`).

Every reader on the way looks at the front of the text first, for what it might be instead of a key:
a blank, the end of the line, a comment, a header, a quote. That it is none of them is one fact, and
all the laws of keys use it (`Toml.Text.ne_of_isBareChar`). Each law says what its reader leaves, so
that the next one can take over there.
-/

namespace EncryptThenMac

namespace Toml

variable {c : Char} {key chars rest : List Char}

namespace Text

/-! ## Keys -/

/-- The characters at the front of a text by which a reader sees that it is no bare key. -/
def marks : List Char :=
  [' ', '\t', '\n', '\r', '#', '[', '"', '\x27', '\ufeff']

theorem not_isBareChar_of_mem_marks {mark : Char} (h : mark ∈ marks) : isBareChar mark = false := by
  have hmarks : marks.all (fun mark => !isBareChar mark) = true := by decide
  simpa using List.all_eq_true.mp hmarks mark h

/-- A bare key starts with none of the marks. -/
theorem ne_of_isBareChar {mark : Char} (h : isBareChar c) (hmark : mark ∈ marks) : c ≠ mark := by
  rintro rfl
  rw [not_isBareChar_of_mem_marks hmark] at h
  exact absurd h (by decide)

theorem skipBlanks_cons (h : isBareChar c) : skipBlanks (c :: rest) = c :: rest := by
  refine List.dropWhile_cons_of_neg ?_
  simp [isBlank, ne_of_isBareChar h (show ' ' ∈ marks by decide),
    ne_of_isBareChar h (show '\t' ∈ marks by decide)]

/-- A bare key ends at a blank, and the blank is left. -/
theorem keyPart?_append (hkey : key ≠ []) (h : ∀ c ∈ key, isBareChar c) :
    keyPart? (key ++ ' ' :: rest) = some (String.ofList key, ' ' :: rest) := by
  obtain ⟨c, cs, rfl⟩ := List.exists_cons_of_ne_nil hkey
  have hc : isBareChar c := h c List.mem_cons_self
  have hblank : isBareChar ' ' = false := not_isBareChar_of_mem_marks (by decide)
  have htake : ((c :: cs) ++ ' ' :: rest).takeWhile isBareChar = c :: cs := by
    rw [List.takeWhile_append_of_pos h]
    simp [hblank]
  have hdrop : ((c :: cs) ++ ' ' :: rest).dropWhile isBareChar = ' ' :: rest := by
    rw [List.dropWhile_append_of_pos h]
    simp [hblank]
  unfold keyPart?
  split
  · next heq => exact absurd (List.cons.inj heq).1 (ne_of_isBareChar hc (by decide))
  · next heq => exact absurd (List.cons.inj heq).1 (ne_of_isBareChar hc (by decide))
  · rw [htake, hdrop]
    rfl

theorem key?_append {room : Nat} (hroom : room ≠ 0) (hkey : key ≠ [])
    (h : ∀ c ∈ key, isBareChar c) :
    key? room (key ++ ' ' :: '=' :: rest) = some ([String.ofList key], '=' :: rest) := by
  obtain ⟨room, rfl⟩ := Nat.exists_eq_succ_of_ne_zero hroom
  have hskip : skipBlanks (key ++ ' ' :: '=' :: rest) = key ++ ' ' :: '=' :: rest := by
    obtain ⟨c, cs, rfl⟩ := List.exists_cons_of_ne_nil hkey
    exact skipBlanks_cons (h c List.mem_cons_self)
  rw [key?, hskip, keyPart?_append hkey h]
  rfl

theorem path?_append (hkey : key ≠ []) (h : ∀ c ∈ key, isBareChar c) :
    path? (key ++ ' ' :: '=' :: rest) = some (([], String.ofList key), '=' :: rest) := by
  rw [path?, key?_append (by decide) hkey h]
  rfl

/-! ## Strings -/

/-- What needs no quotes in a key stands for itself between quotes. -/
theorem isBasicChar_of_isBareChar (h : isBareChar c) : isBasicChar c := by
  have hquote : c ≠ '"' := ne_of_isBareChar h (by decide)
  have hbackslash : c ≠ '\\' := by
    rintro rfl
    exact absurd h (by decide)
  have hprinted : 0x20 ≤ c.toNat ∧ c.toNat ≤ 0x7e := by
    change ((((c.isUpper || c.isLower) || c.isDigit) || c == '-') || c == '_') = true at h
    simp only [Bool.or_eq_true, beq_iff_eq] at h
    rcases h with (((hupper | hlower) | hdigit) | rfl) | rfl
    · have hrange : 0x41 ≤ c.toNat ∧ c.toNat ≤ 0x5A := of_decide_eq_true hupper
      omega
    · obtain ⟨hfrom, hto⟩ := Bool.and_eq_true_iff.mp hlower
      have hrange : 0x61 ≤ c.toNat ∧ c.toNat ≤ 0x7A :=
        ⟨of_decide_eq_true hfrom, of_decide_eq_true hto⟩
      omega
    · obtain ⟨hfrom, hto⟩ := Bool.and_eq_true_iff.mp hdigit
      have hrange : 0x30 ≤ c.toNat ∧ c.toNat ≤ 0x39 :=
        ⟨of_decide_eq_true hfrom, of_decide_eq_true hto⟩
      omega
    · decide
    · decide
  have hfirst : '\x20' ≤ c := hprinted.1
  have hlast : c ≤ '\x7e' := hprinted.2
  simp [isBasicChar, isCommentChar, hquote, hbackslash, hfirst, hlast]

/-- A basic string of characters that stand for themselves ends at the next quote. -/
theorem basic_append (h : ∀ c ∈ chars, isBasicChar c) :
    basic (chars ++ '"' :: rest) = some (chars, rest) := by
  induction chars with
  | nil => rfl
  | cons c chars ih =>
    have hc : isBasicChar c := h c List.mem_cons_self
    have hquote : c ≠ '"' := by
      rintro rfl
      exact absurd hc (by decide)
    have hbackslash : c ≠ '\\' := by
      rintro rfl
      exact absurd hc (by decide)
    rw [List.cons_append, basic, if_pos hc, ih fun d hd => h d (List.mem_cons_of_mem c hd)]
    · rfl
    all_goals simp_all

/-- A text between quotes, at the end of its line. What is behind the line is left. -/
theorem string?_append (h : ∀ c ∈ chars, isBasicChar c) :
    string? ('"' :: (chars ++ '"' :: '\n' :: rest)) = some (String.ofList chars, '\n' :: rest) := by
  unfold string?
  split
  · next heq =>
    -- Not three quotes: none is among the characters, and behind the last one the line ends.
    cases chars with
    | nil => simp at heq
    | cons c chars =>
      have hc : isBasicChar c := h c List.mem_cons_self
      simp only [List.cons_append, List.cons.injEq, true_and] at heq
      rw [heq.1] at hc
      exact absurd hc (by decide)
  · next heq =>
    rw [← (List.cons.inj heq).2, basic_append h]
    rfl
  · next heq => exact absurd (List.cons.inj heq).1 (by decide)
  · next heq => exact absurd (List.cons.inj heq).1 (by decide)
  · next hno _ _ => exact absurd rfl (hno _)

end Text

/-! ## Entries -/

theorem Value.read?_append (depth : Nat) (h : ∀ c ∈ chars, Text.isBasicChar c) :
    Value.read? depth ('"' :: (chars ++ '"' :: '\n' :: rest)) =
      some (.string (String.ofList chars), '\n' :: rest) := by
  unfold Value.read?
  split
  · next heq => exact absurd (List.cons.inj heq).1 (by decide)
  · next heq => exact absurd (List.cons.inj heq).1 (by decide)
  · rw [Value.scalar?, Text.string?_append h]
    rfl

/-- A bare key, and behind the sign whatever reads the value. -/
theorem entry?_append {value? : Reader Value} {value : Value} {text : List Char} (hkey : key ≠ [])
    (h : ∀ c ∈ key, Text.isBareChar c)
    (hvalue : value? (Text.skipBlanks text) = some (value, rest)) :
    entry? value? (key ++ ' ' :: '=' :: text) = some (([], String.ofList key, value), rest) := by
  unfold entry?
  rw [Text.path?_append hkey h]
  show (value? (Text.skipBlanks text)).bind _ = _
  rw [hvalue]
  rfl

namespace Document

theorem line?_append (hkey : key ≠ []) (hbare : ∀ c ∈ key, Text.isBareChar c)
    (hbasic : ∀ c ∈ chars, Text.isBasicChar c) :
    line? .empty (key ++ ' ' :: '=' :: ' ' :: '"' :: (chars ++ '"' :: '\n' :: rest)) =
      some (⟨[(String.ofList key, .value (.string (String.ofList chars)))], []⟩, '\n' :: rest) := by
  have hentry : entry? (Value.read? maximumDepth)
      (key ++ ' ' :: '=' :: ' ' :: '"' :: (chars ++ '"' :: '\n' :: rest)) =
        some (([], String.ofList key, .string (String.ofList chars)), '\n' :: rest) :=
    entry?_append hkey hbare (Value.read?_append maximumDepth hbasic)
  obtain ⟨c, cs, rfl⟩ := List.exists_cons_of_ne_nil hkey
  have hc : c ≠ '[' := Text.ne_of_isBareChar (hbare c List.mem_cons_self) (by decide)
  unfold line?
  split
  · next heq => exact absurd (List.cons.inj heq).1 hc
  · next heq => exact absurd (List.cons.inj heq).1 hc
  · rw [hentry]
    rfl

theorem lines?_cons (h : Text.isBareChar c) (budget : Nat) (state : State) :
    lines? (budget + 1) state (c :: rest) =
      (line? state (c :: rest)).bind fun (state, rest) =>
        (Text.nextLine? rest).bind fun text => lines? budget state text := by
  have hentry : (c == '#' || c == '\n' || c == '\r') = false := by
    simp [Text.ne_of_isBareChar h (show '#' ∈ Text.marks by decide),
      Text.ne_of_isBareChar h (show '\n' ∈ Text.marks by decide),
      Text.ne_of_isBareChar h (show '\r' ∈ Text.marks by decide)]
  rw [lines?, Text.skipBlanks_cons h]
  simp only [hentry]
  rfl

theorem withoutMark_cons (h : Text.isBareChar c) : withoutMark (c :: rest) = c :: rest := by
  unfold withoutMark
  split
  · next heq => exact absurd (List.cons.inj heq).1 (Text.ne_of_isBareChar h (by decide))
  · rfl

/-- **An entry is read as it was written**, if neither its key nor its text needs an escape. -/
theorem parse?_entry {key text : String} (hkey : key ≠ "")
    (hbare : ∀ c ∈ key.toList, Text.isBareChar c) (hbasic : ∀ c ∈ text.toList, Text.isBasicChar c) :
    parse? (key ++ " = \"" ++ text ++ "\"\n") = some [(key, .string text)] := by
  have hchars : (key ++ " = \"" ++ text ++ "\"\n").toList =
      key.toList ++ ' ' :: '=' :: ' ' :: '"' :: (text.toList ++ ['"', '\n']) := by
    simp [String.toList_append]
  have hne : key.toList ≠ [] := by simpa using hkey
  have hline :
      line? .empty (key.toList ++ ' ' :: '=' :: ' ' :: '"' :: (text.toList ++ ['"', '\n'])) =
        some (⟨[(key, .value (.string text))], []⟩, ['\n']) := by
    rw [line?_append hne hbare hbasic, String.ofList_toList, String.ofList_toList]
  obtain ⟨c, cs, hcs⟩ := List.exists_cons_of_ne_nil hne
  have hc : Text.isBareChar c := hbare c (by rw [hcs]; exact List.mem_cons_self)
  rw [hcs, List.cons_append] at hchars hline
  rw [parse?, hchars, withoutMark_cons hc, lines?_cons hc, hline]
  rfl

end Document

end Toml

/-! ## Templates -/

/-- **A template is what its text gives.** -/
theorem Template.ofText_toText (template : Template) : ofText template.toText = .ok template := by
  have hbasic : template.variant.configName.toList.all Toml.Text.isBasicChar = true := by
    cases template.variant <;> decide
  have hparse : Toml.Document.parse? template.toText =
      some [("algorithm", .string template.variant.configName)] := by
    rw [toText, show "algorithm = \"" = "algorithm" ++ " = \"" by decide]
    exact Toml.Document.parse?_entry (by decide) (List.all_eq_true.mp (by decide))
      (List.all_eq_true.mp hbasic)
  have htable : ofTable [("algorithm", .string template.variant.configName)] = .ok template := by
    rw [template.variant.configName_eq_name]
    exact ofTable_eq_ok_iff.mpr .string
  rw [ofText_of_parse? hparse, htable]
  rfl

end EncryptThenMac
