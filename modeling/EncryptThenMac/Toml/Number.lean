import EncryptThenMac.Toml.Text
import EncryptThenMac.Toml.Value

/-!
# Numbers in a TOML text

An integer is decimal, with a sign if wanted and without leading zeros, or hexadecimal, octal or
binary behind a prefix and without a sign. A float is a decimal integer with a fraction, an
exponent or both, or one of the two words `inf` and `nan`. Between two digits of a number there
may be one underscore.

Two limits make a text ill-formed that is well spelled: an integer must fit 64 bits with a sign,
and a float must not round to positive infinity. Both are decided exactly and without writing
out a long number. For an integer it is enough to read up to a bound that does not fit
(`numberUpTo`); for a float it is enough to look at as many digits as the bound has
(`roundsToInfinity`).

An exponent, too, is read up to a bound, `exponentBound`: once its digits make that much, those
behind do not count. Below the bound it stands for what it says (`numberUpTo_eq_numberIn`).
Above, it decides by itself, unless the digits in front of it are as many: `1e6553600` is
infinite and so is its reading `1e65536`, but with 65400 zeros between a point and the digit the
reading is not.
-/

namespace EncryptThenMac.Toml.Number

/-! ## Digits -/

/-- The digits at the front of a text after a first one, each with at most one underscore before
it. -/
def moreDigits (isDigit : Char → Bool) : List Char → List Char × List Char
  | '_' :: c :: rest =>
    if isDigit c then
      let (digits, rest) := moreDigits isDigit rest
      (c :: digits, rest)
    else ([], '_' :: c :: rest)
  | c :: rest =>
    if isDigit c then
      let (digits, rest) := moreDigits isDigit rest
      (c :: digits, rest)
    else ([], c :: rest)
  | [] => ([], [])

def digits? (isDigit : Char → Bool) : Reader (List Char)
  | c :: rest =>
    if isDigit c then
      let (digits, rest) := moreDigits isDigit rest
      some (c :: digits, rest)
    else none
  | [] => none

def sign : List Char → Bool × List Char
  | '-' :: rest => (true, rest)
  | '+' :: rest => (false, rest)
  | text => (false, text)

/-- The digits of a decimal integer with its sign. A leading zero stands alone. -/
def decimal? (text : List Char) : Option ((Bool × List Char) × List Char) :=
  let (negative, text) := sign text
  match text with
  | '0' :: rest => some ((negative, ['0']), rest)
  | text => (digits? Char.isDigit text).map fun (digits, rest) => ((negative, digits), rest)

def shifted (base number : Nat) (digit : Char) : Nat :=
  number * base + (Text.hexDigit? digit).getD 0

def numberIn (base : Nat) (digits : List Char) : Nat :=
  digits.foldl (shifted base) 0

/-- A number with one more digit behind it, unless it has reached the bound. -/
def shiftedUpTo (bound base number : Nat) (digit : Char) : Nat :=
  if number < bound then shifted base number digit else number

/-- The number that digits write in a base, read up to a bound: once it has been reached, the
digits behind do not count. -/
def numberUpTo (bound base : Nat) (digits : List Char) : Nat :=
  digits.foldl (shiftedUpTo bound base) 0

theorem le_foldl_shifted {base : Nat} (hb : 0 < base) : ∀ (digits : List Char) (number : Nat),
    number ≤ digits.foldl (shifted base) number
  | [], number => Nat.le_refl number
  | digit :: digits, number =>
    have first : number ≤ shifted base number digit :=
      Nat.le_trans (Nat.le_mul_of_pos_right number hb) (Nat.le_add_right _ _)
    Nat.le_trans first (le_foldl_shifted hb digits _)

theorem foldl_shiftedUpTo_of_le {bound base number : Nat} (h : bound ≤ number) :
    ∀ digits : List Char, digits.foldl (shiftedUpTo bound base) number = number
  | [] => rfl
  | digit :: digits => by
    rw [List.foldl_cons, shiftedUpTo, if_neg (Nat.not_lt.2 h), foldl_shiftedUpTo_of_le h digits]

theorem foldl_shiftedUpTo_of_lt {bound base : Nat} (hb : 0 < base) :
    ∀ (digits : List Char) (number : Nat), digits.foldl (shifted base) number < bound →
      digits.foldl (shiftedUpTo bound base) number = digits.foldl (shifted base) number
  | [], _, _ => rfl
  | digit :: digits, number, h => by
    -- What is below the bound at the end has been below it all along.
    have room : number < bound :=
      Nat.lt_of_le_of_lt (le_foldl_shifted hb (digit :: digits) number) h
    rw [List.foldl_cons, shiftedUpTo, if_pos room, foldl_shiftedUpTo_of_lt hb digits _ h,
      List.foldl_cons]

theorem numberUpTo_eq_numberIn {bound base : Nat} {digits : List Char} (hb : 0 < base)
    (h : numberIn base digits < bound) : numberUpTo bound base digits = numberIn base digits :=
  foldl_shiftedUpTo_of_lt hb digits 0 h

/-- A number is read as one below the bound exactly if it is one. -/
theorem numberUpTo_lt_iff {bound base : Nat} {digits : List Char} (hb : 0 < base) :
    numberUpTo bound base digits < bound ↔ numberIn base digits < bound := by
  have reached : ∀ (digits : List Char) (number : Nat),
      digits.foldl (shiftedUpTo bound base) number < bound →
        digits.foldl (shifted base) number < bound := by
    intro digits
    induction digits with
    | nil => intro number h; exact h
    | cons digit digits ih =>
      intro number h
      rcases Nat.lt_or_ge number bound with room | past
      · rw [List.foldl_cons, shiftedUpTo, if_pos room] at h
        exact ih _ h
      · rw [foldl_shiftedUpTo_of_le past] at h
        omega
  constructor
  · exact reached digits 0
  · intro h
    rw [numberUpTo_eq_numberIn hb h]
    exact h

/-! ## Integers -/

/-- The least size that does not fit 64 bits with a sign, whatever the sign. -/
def integerBound : Nat :=
  Nat.pow 2 63 + 1

def fitting? (number : Int) : Option Int :=
  if Int64.minValue.toInt ≤ number ∧ number ≤ Int64.maxValue.toInt then some number else none

def based? (base : Nat) (isDigit : Char → Bool) (text : List Char) : Option (Int × List Char) := do
  let (digits, rest) ← digits? isDigit text
  let number ← fitting? (numberUpTo integerBound base digits)
  some (number, rest)

def integer? : Reader Int
  | '0' :: 'x' :: rest => based? 16 (fun c => (Text.hexDigit? c).isSome) rest
  | '0' :: 'o' :: rest => based? 8 (fun c => '0' ≤ c && c ≤ '7') rest
  | '0' :: 'b' :: rest => based? 2 (fun c => c == '0' || c == '1') rest
  | text => do
    let ((negative, digits), rest) ← decimal? text
    let size : Int := numberUpTo integerBound 10 digits
    let number ← fitting? (if negative then -size else size)
    some (number, rest)

/-! ## Floats -/

/-- The least number that rounds to infinity as a binary float of 64 bits: half way from the
largest one, `2 ^ 1024 - 2 ^ 971`, to `2 ^ 1024`. -/
def infinityBound : Nat :=
  Nat.pow 2 1024 - Nat.pow 2 970

def infinityPlaces : Nat :=
  309

theorem infinityBound_bounds :
    Nat.pow 10 (infinityPlaces - 1) ≤ infinityBound ∧
      infinityBound < Nat.pow 10 infinityPlaces := by
  decide +kernel

/-- Whether the decimal with these digits, the first of them not zero, times `10 ^ exponent`
rounds to infinity. -/
def roundsToInfinity (digits : List (Fin 10)) (exponent : Int) : Bool :=
  -- The digits in front of the point decide: by their number, and if there are as many as the
  -- bound has, by what they write. The bound is a whole number, so what stands behind the point
  -- makes no difference.
  let places := digits.length + exponent
  if digits.isEmpty || places < infinityPlaces then false
  else if infinityPlaces < places then true
  else
    let front := digits.take infinityPlaces
    infinityBound ≤
      front.foldl (fun n d => n * 10 + d.val) 0 * Nat.pow 10 (infinityPlaces - front.length)

def decimalDigit (c : Char) : Fin 10 :=
  Fin.ofNat 10 (c.toNat - '0'.toNat)

def fraction? : Reader (List Char)
  | '.' :: rest => digits? Char.isDigit rest
  | _ => none

/-- An exponent is read up to this bound. -/
def exponentBound : Nat :=
  Nat.pow 2 16

def exponent? : Reader Int
  | c :: rest =>
    if c == 'e' || c == 'E' then do
      let (negative, rest) := sign rest
      let (digits, rest) ← digits? Char.isDigit rest
      let size : Int := numberUpTo exponentBound 10 digits
      some (if negative then -size else size, rest)
    else none
  | [] => none

def finite? (text : List Char) : Option (Float × List Char) := do
  let ((negative, whole), rest) ← decimal? text
  let (fraction, exponent, rest) ← match fraction? rest with
    | some (fraction, rest) =>
      match exponent? rest with
      | some (exponent, rest) => some (fraction, exponent, rest)
      | none => some (fraction, 0, rest)
    | none => (exponent? rest).map fun (exponent, rest) => ([], exponent, rest)
  let digits := ((whole ++ fraction).map decimalDigit).dropWhile (· == 0)
  let exponent := exponent - fraction.length
  if !negative && roundsToInfinity digits exponent then none
  else some (.finite negative digits exponent, rest)

def special? (text : List Char) : Option (Float × List Char) :=
  let (negative, text) := sign text
  match text with
  | 'i' :: 'n' :: 'f' :: rest => some (.infinity negative, rest)
  | 'n' :: 'a' :: 'n' :: rest => some (.nan, rest)
  | _ => none

def float? (text : List Char) : Option (Float × List Char) :=
  finite? text <|> special? text

end EncryptThenMac.Toml.Number
