import EncryptThenMac.Toml.Clock
import EncryptThenMac.Toml.Draft
import EncryptThenMac.Toml.Number

/-!
# Reading a TOML document

A document is a sequence of lines, and a line is empty, an entry `key = value`, a header `[key]`
that says which table the next entries belong to, or a header `[[key]]` that starts a new
element of an array of tables. A value is written on one line, except inside the brackets of an
array and the long strings.

Two limits keep a text from nesting without end: arrays and tables in braces go `maximumDepth`
deep, and a key has at most `maximumDepth` parts. The depth that is left is an argument of
`value?`, which is also what makes the recursion of the reader end: an array of values at one
depth is read with the reader for the depth below. The loops over elements and over lines are
bounded by the length of the text, of which every round takes some.

`Document.parse?` gives the table that a text stands for, or `none` for a text that is not
well-formed.
-/

namespace EncryptThenMac.Toml

/-- How deep arrays and tables in braces may nest, and how many parts a key may have. -/
def maximumDepth : Nat := 79

def Text.path? (text : List Char) : Option ((List String × String) × List Char) := do
  let (parts, rest) ← Text.key? maximumDepth text
  let last ← parts.getLast?
  some ((parts.dropLast, last), rest)

def entry? (value? : Reader Value) (text : List Char) :
    Option ((List String × String × Value) × List Char) := do
  let ((path, key), rest) ← Text.path? text
  match rest with
  | '=' :: rest => do
    let (value, rest) ← value? (Text.skipBlanks rest)
    some ((path, key, value), rest)
  | _ => none

namespace Value

/-- The items of an array, behind the opening bracket or a comma. -/
def items? (item? : Reader Value) : (budget : Nat) → Reader (List Value)
  | 0, _ => none
  | budget + 1, text =>
    match Text.skipSpace false text with
    | ']' :: rest => some ([], rest)
    | text => do
      let (item, rest) ← item? text
      match Text.skipSpace false rest with
      | ',' :: rest => do
        let (items, rest) ← items? item? budget rest
        some (item :: items, rest)
      | ']' :: rest => some ([item], rest)
      | _ => none

/-- The entries of a table in braces, behind the opening brace or a comma, added to those
before. -/
def entries? (item? : Reader Value) : (budget : Nat) → Draft → Reader Draft
  | 0, _, _ => none
  | budget + 1, draft, text => do
    let ((path, key, value), rest) ← entry? item? text
    let draft ← draft.addEntry? path key value .header
    match Text.skipBlanks rest with
    | ',' :: rest => entries? item? budget draft rest
    | '}' :: rest => some (draft, rest)
    | _ => none

def braced? (item? : Reader Value) (text : List Char) : Option (Table × List Char) :=
  match Text.skipBlanks text with
  | '}' :: rest => some ([], rest)
  | text => (entries? item? text.length [] text).map fun (draft, rest) => (Draft.finish draft, rest)

def boolean? : Reader Bool
  | 't' :: 'r' :: 'u' :: 'e' :: rest => some (true, rest)
  | 'f' :: 'a' :: 'l' :: 's' :: 'e' :: rest => some (false, rest)
  | _ => none

def scalar? (text : List Char) : Option (Value × List Char) :=
  (Text.string? text).map (fun (s, rest) => (string s, rest)) <|>
  (boolean? text).map (fun (b, rest) => (boolean b, rest)) <|>
  (Clock.dateTime? text).map (fun (t, rest) => (datetime t, rest)) <|>
  (Number.float? text).map (fun (x, rest) => (float x, rest)) <|>
  (Number.integer? text).map (fun (n, rest) => (integer n, rest))

/-- A value with at most `depth` arrays and tables in braces around each other. -/
def read? : (depth : Nat) → Reader Value
  | depth + 1, '[' :: rest =>
    (items? (read? depth) (rest.length + 1) rest).map fun (items, rest) => (array items, rest)
  | depth + 1, '\x7b' :: rest =>
    (braced? (read? depth) rest).map fun (entries, rest) => (table entries, rest)
  | _, text => scalar? text

end Value

namespace Document

/-! ## Lines -/

structure State where
  draft : Draft
  -- The path of the last header: the table that entries belong to.
  current : List String

def State.empty : State :=
  ⟨[], []⟩

/-- A header, behind its opening brackets: the change it makes to the table that is to hold
`key`, and the closing brackets. -/
def header? (openKey? : String → Draft → Option Draft) (close : List Char → Option (List Char))
    (state : State) (text : List Char) : Option (State × List Char) := do
  let ((path, key), rest) ← Text.path? text
  let rest ← close rest
  let draft ← state.draft.descend? .longerHeader (fun _ => openKey? key) path .header
  some (⟨draft, path ++ [key]⟩, rest)

def line? (state : State) : List Char → Option (State × List Char)
  | '[' :: '[' :: rest =>
    header? Draft.openElement? (fun rest => (Clock.after? ']' rest).bind (Clock.after? ']'))
      state rest
  | '[' :: rest => header? Draft.openTable? (Clock.after? ']') state rest
  | text => do
    let ((path, key, value), rest) ← entry? (Value.read? maximumDepth) text
    let draft ←
      state.draft.descend? .longerHeader (Draft.addEntry? path key value) state.current .header
    some (⟨draft, state.current⟩, rest)

def lines? : (budget : Nat) → State → List Char → Option State
  | 0, _, _ => none
  | budget + 1, state, text =>
    match Text.skipBlanks text with
    | [] => some state
    | c :: rest =>
      if c == '#' || c == '\n' || c == '\r' then do
        let text ← Text.nextLine? (c :: rest)
        lines? budget state text
      else do
        let (state, rest) ← line? state (c :: rest)
        let text ← Text.nextLine? rest
        lines? budget state text

/-- The text without one byte order mark at its start. -/
def withoutMark : List Char → List Char
  | '\ufeff' :: rest => rest
  | text => text

def parse? (text : String) : Option Table :=
  let text := withoutMark text.toList
  (lines? (text.length + 1) .empty text).map fun state => Draft.finish state.draft

end Document

end EncryptThenMac.Toml
