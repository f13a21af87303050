import EncryptThenMac.Toml.Text
import EncryptThenMac.Toml.Value

/-!
# Dates and times in a TOML text

A date is `YYYY-MM-DD`, a time `HH:MM:SS` with a fraction of a second if wanted, and the two can
stand together, the time behind `T`, `t` or a blank and with an offset from universal time if
wanted. Every field has a fixed number of digits and a range of its own, and a day has to exist
in the calendar.

A blank behind a date does not promise a time: where none follows, the date stands alone and the
blank is not taken.
-/

namespace EncryptThenMac.Toml.Clock

def fixed? : (count : Nat) → (sofar : Nat) → Reader Nat
  | 0, number, text => some (number, text)
  | count + 1, number, c :: rest =>
    if c.isDigit then fixed? count (number * 10 + (c.toNat - '0'.toNat)) rest else none
  | _ + 1, _, [] => none

def field? (low high : Nat) (text : List Char) : Option (Nat × List Char) := do
  let (number, rest) ← fixed? 2 0 text
  if low ≤ number ∧ number ≤ high then some (number, rest) else none

def after? (c : Char) : List Char → Option (List Char)
  | d :: rest => if d == c then some rest else none
  | [] => none

/-! ## Dates -/

def isLeap (year : Nat) : Bool :=
  year % 4 == 0 && (year % 100 != 0 || year % 400 == 0)

def daysIn (year month : Nat) : Nat :=
  if month == 2 then (if isLeap year then 29 else 28)
  else if month == 4 || month == 6 || month == 9 || month == 11 then 30
  else 31

def date? (text : List Char) : Option (Date × List Char) := do
  let (year, rest) ← fixed? 4 0 text
  let rest ← after? '-' rest
  let (month, rest) ← field? 1 12 rest
  let rest ← after? '-' rest
  let (day, rest) ← field? 1 (daysIn year month) rest
  some (⟨year, month, day⟩, rest)

/-! ## Times -/

/-- The digits behind the point of a second, as billionths; the tenth digit and later ones are
dropped. -/
def nanoseconds (digits : List Char) : Nat :=
  let kept := digits.take 9
  kept.foldl (fun number c => number * 10 + (c.toNat - '0'.toNat)) 0 * Nat.pow 10 (9 - kept.length)

def fraction : List Char → Nat × List Char
  | '.' :: rest =>
    let digits := rest.takeWhile Char.isDigit
    if digits.isEmpty then (0, '.' :: rest) else (nanoseconds digits, rest.dropWhile Char.isDigit)
  | text => (0, text)

def time? (text : List Char) : Option (Time × List Char) := do
  let (hour, rest) ← field? 0 23 text
  let rest ← after? ':' rest
  let (minute, rest) ← field? 0 59 rest
  let rest ← after? ':' rest
  let (second, rest) ← field? 0 60 rest
  let (nanosecond, rest) := fraction rest
  some (⟨hour, minute, second, nanosecond⟩, rest)

def offset? : Reader Offset
  | c :: rest =>
    if c == 'Z' || c == 'z' then some (.zulu, rest)
    else if c == '+' || c == '-' then do
      let (hours, rest) ← field? 0 23 rest
      let rest ← after? ':' rest
      let (minutes, rest) ← field? 0 59 rest
      let ahead : Int := hours * 60 + minutes
      some (.minutes (if c == '-' then -ahead else ahead), rest)
    else none
  | [] => none

/-! ## Points in time -/

/-- The time that follows a date. -/
def timeBehindDate? : Reader Time
  | c :: rest => if c == 'T' || c == 't' || c == ' ' then time? rest else none
  | [] => none

def dateTime? (text : List Char) : Option (DateTime × List Char) :=
  match date? text with
  | none => (time? text).map fun (time, rest) => (.time time, rest)
  | some (date, rest) =>
    match timeBehindDate? rest with
    | none => some (.date date, rest)
    | some (time, rest) =>
      match offset? rest with
      | none => some (.unzoned date time, rest)
      | some (offset, rest) => some (.zoned date time offset, rest)

end EncryptThenMac.Toml.Clock
