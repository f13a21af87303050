/-!
# The pieces of a TOML text

A reader takes what it recognises off the front of a text and gives it back with the rest, or
gives `none`. This module has the readers that know nothing of values yet: blanks, comments and
line ends, the four forms of string, and keys.

Which characters may stand where is the whole of it. A comment, and every form of string,
excludes the control characters except the tab; the strings exclude their own quote as well, and
the basic forms the backslash. The long forms may also hold line ends, of either spelling, which
all read as `'\n'`.

A quote may stand in a long form as long as there are no three in a row. That makes the end a
matter of counting: of three to five quotes the last three close the string and the ones before
belong to it (`longBasic`, `longLiteral`).
-/

namespace EncryptThenMac.Toml

/-- Takes something off the front of a text, or does not find it there. -/
abbrev Reader (α : Type) := List Char → Option (α × List Char)

namespace Text

/-! ## Blanks, comments and line ends -/

def isBlank (c : Char) : Bool :=
  c == ' ' || c == '\t'

def isCommentChar (c : Char) : Bool :=
  c == '\t' || ('\x20' ≤ c && c ≤ '\x7e') || '\x80' ≤ c

def skipBlanks (text : List Char) : List Char :=
  text.dropWhile isBlank

def skipComment : List Char → List Char
  | '#' :: rest => rest.dropWhile isCommentChar
  | text => text

def afterNewline? : List Char → Option (List Char)
  | '\n' :: rest => some rest
  | '\r' :: '\n' :: rest => some rest
  | _ => none

def skipNewline (text : List Char) : List Char :=
  (afterNewline? text).getD text

def nextLine? (text : List Char) : Option (List Char) :=
  match skipComment (skipBlanks text) with
  | [] => some []
  | rest => afterNewline? rest

/-- The text behind blanks, line ends and comments. A comment counts as far as its characters
go; what it is then followed by, other than a line end, is no part of what is skipped. -/
def skipSpace : (inComment : Bool) → List Char → List Char
  | _, '\n' :: rest => skipSpace false rest
  | _, '\r' :: '\n' :: rest => skipSpace false rest
  | false, '#' :: rest => skipSpace true rest
  | inComment, c :: rest =>
    if inComment && isCommentChar c || isBlank c then skipSpace inComment rest else c :: rest
  | _, [] => []

/-! ## Characters of strings -/

def isBasicChar (c : Char) : Bool :=
  isCommentChar c && c != '"' && c != '\\'

def isLiteralChar (c : Char) : Bool :=
  isCommentChar c && c != '\x27'

def escape? : Char → Option Char
  | 'b' => some '\x08'
  | 't' => some '\t'
  | 'n' => some '\n'
  | 'f' => some '\x0c'
  | 'r' => some '\r'
  | '"' => some '"'
  | '\\' => some '\\'
  | _ => none

def hexDigit? (c : Char) : Option Nat :=
  if '0' ≤ c ∧ c ≤ '9' then some (c.toNat - '0'.toNat)
  else if 'a' ≤ c ∧ c ≤ 'f' then some (c.toNat - 'a'.toNat + 10)
  else if 'A' ≤ c ∧ c ≤ 'F' then some (c.toNat - 'A'.toNat + 10)
  else none

def hexNumber? (digits : List Char) : Option Nat :=
  digits.foldlM (fun number digit => (hexDigit? digit).map (number * 16 + ·)) 0

def codePoint? (digits : List Char) : Option Char :=
  (hexNumber? digits).bind fun code => if code.isValidChar then some (Char.ofNat code) else none

/-! ## Strings, behind the opening quotes -/

def push (c : Char) (found : Option (List Char × List Char)) : Option (List Char × List Char) :=
  found.map fun (text, rest) => (c :: text, rest)

def basic : Reader (List Char)
  | '"' :: rest => some ([], rest)
  | '\\' :: 'u' :: a :: b :: c :: d :: rest => (codePoint? [a, b, c, d]).bind (push · (basic rest))
  | '\\' :: 'U' :: a :: b :: c :: d :: e :: f :: g :: h :: rest =>
    (codePoint? [a, b, c, d, e, f, g, h]).bind (push · (basic rest))
  | '\\' :: c :: rest => (escape? c).bind (push · (basic rest))
  | c :: rest => if isBasicChar c then push c (basic rest) else none
  | [] => none

def literal : Reader (List Char)
  | '\x27' :: rest => some ([], rest)
  | c :: rest => if isLiteralChar c then push c (literal rest) else none
  | [] => none

/-- Whether the text, which follows a backslash, ends its line there: the backslash then joins
the lines. -/
def joinsLines (text : List Char) : Bool :=
  (afterNewline? (skipBlanks text)).isSome

/-- A basic string over several lines. While `joining`, blanks and line ends are left out: they
follow a backslash at the end of a line. -/
def longBasic : (joining : Bool) → Reader (List Char)
  | _, '"' :: '"' :: '"' :: '"' :: '"' :: rest => some (['"', '"'], rest)
  | _, '"' :: '"' :: '"' :: '"' :: rest => some (['"'], rest)
  | _, '"' :: '"' :: '"' :: rest => some ([], rest)
  | _, '"' :: rest => push '"' (longBasic false rest)
  | joining, '\r' :: '\n' :: rest =>
    if joining then longBasic true rest else push '\n' (longBasic false rest)
  | joining, '\n' :: rest =>
    if joining then longBasic true rest else push '\n' (longBasic false rest)
  | _, '\\' :: 'u' :: a :: b :: c :: d :: rest =>
    (codePoint? [a, b, c, d]).bind (push · (longBasic false rest))
  | _, '\\' :: 'U' :: a :: b :: c :: d :: e :: f :: g :: h :: rest =>
    (codePoint? [a, b, c, d, e, f, g, h]).bind (push · (longBasic false rest))
  | _, '\\' :: c :: rest =>
    if joinsLines (c :: rest) then longBasic true (c :: rest)
    else (escape? c).bind (push · (longBasic false rest))
  | joining, c :: rest =>
    if joining && isBlank c then longBasic true rest
    else if isBasicChar c then push c (longBasic false rest)
    else none
  | _, [] => none

def longLiteral : Reader (List Char)
  | '\x27' :: '\x27' :: '\x27' :: '\x27' :: '\x27' :: rest => some (['\x27', '\x27'], rest)
  | '\x27' :: '\x27' :: '\x27' :: '\x27' :: rest => some (['\x27'], rest)
  | '\x27' :: '\x27' :: '\x27' :: rest => some ([], rest)
  | '\x27' :: rest => push '\x27' (longLiteral rest)
  | '\r' :: '\n' :: rest => push '\n' (longLiteral rest)
  | '\n' :: rest => push '\n' (longLiteral rest)
  | c :: rest => if isLiteralChar c then push c (longLiteral rest) else none
  | [] => none

/-- A string of one of the four forms. A line end right behind three opening quotes is no part
of it. -/
def string? (text : List Char) : Option (String × List Char) :=
  let found := match text with
    | '"' :: '"' :: '"' :: rest => longBasic false (skipNewline rest)
    | '"' :: rest => basic rest
    | '\x27' :: '\x27' :: '\x27' :: rest => longLiteral (skipNewline rest)
    | '\x27' :: rest => literal rest
    | _ => none
  found.map fun (string, rest) => (String.ofList string, rest)

/-! ## Keys -/

def isBareChar (c : Char) : Bool :=
  c.isAlphanum || c == '-' || c == '_'

def keyPart? (text : List Char) : Option (String × List Char) :=
  let found := match text with
    | '"' :: rest => basic rest
    | '\x27' :: rest => literal rest
    | _ =>
      let bare := text.takeWhile isBareChar
      if bare.isEmpty then none else some (bare, text.dropWhile isBareChar)
  found.map fun (string, rest) => (String.ofList string, rest)

/-- A key of at most `room` parts with dots between them, and blanks around every part. -/
def key? : (room : Nat) → Reader (List String)
  | 0, _ => none
  | room + 1, text => do
    let (part, rest) ← keyPart? (skipBlanks text)
    match skipBlanks rest with
    | '.' :: more => do
      let (parts, rest) ← key? room more
      some (part :: parts, rest)
    | rest => some ([part], rest)

end Text

end EncryptThenMac.Toml
