/-!
# TOML values

What a TOML document says, once its text has been read: a table of values, where a value is a
scalar, an array or a table. Two things that a text can write differently stay apart here
because a reader of a configuration can tell them apart. An *array of tables*, written with
double-bracketed headers, is not the same as an array written in brackets that happens to hold
tables; it has at least one element, and its type says so. And an integer is not a float.

Numbers are exact. An integer is one of 64 bits, kept as an `Int` (the reader refuses the
others); a float is the decimal that was read, by its digits and the power of ten that they are
multiplied by, not its rounding.
-/

namespace EncryptThenMac.Toml

/-! ## Scalars -/

/-- A number that is not an integer. -/
inductive Float where
  -- The whole number with these digits, without leading zeros, times `10 ^ exponent`.
  | finite (negative : Bool) (digits : List (Fin 10)) (exponent : Int)
  | infinity (negative : Bool)
  | nan
deriving DecidableEq

structure Date where
  year : Nat
  month : Nat
  day : Nat
deriving DecidableEq

structure Time where
  hour : Nat
  minute : Nat
  -- 60 is a leap second.
  second : Nat
  -- Billionths of a second; finer digits are dropped.
  nanosecond : Nat
deriving DecidableEq

/-- How a time of the day relates to universal time. -/
inductive Offset where
  | zulu
  -- So many minutes ahead of it, or behind it if negative.
  | minutes (ahead : Int)
deriving DecidableEq

inductive DateTime where
  | date (date : Date)
  | time (time : Time)
  | unzoned (date : Date) (time : Time)
  | zoned (date : Date) (time : Time) (offset : Offset)
deriving DecidableEq

/-! ## Values and tables -/

inductive Value where
  | string (text : String)
  | integer (number : Int)
  | float (number : Float)
  | boolean (truth : Bool)
  | datetime (point : DateTime)
  | array (items : List Value)
  -- No key occurs twice.
  | table (entries : List (String × Value))
  -- Written with one header for each element.
  | tables (first : List (String × Value)) (more : List (List (String × Value)))

/-- A table: its entries in the order in which they were written. -/
abbrev Table := List (String × Value)

/-! ## Kinds -/

inductive Kind where
  | string
  | integer
  | float
  | boolean
  | datetime
  -- An array, however it was written.
  | array
  | table
deriving DecidableEq

def Kind.name : Kind → String
  | string => "string"
  | integer => "integer"
  | float => "float"
  | boolean => "boolean"
  | datetime => "datetime"
  | array => "array"
  | table => "table"

def Value.kind : Value → Kind
  | string _ => .string
  | integer _ => .integer
  | float _ => .float
  | boolean _ => .boolean
  | datetime _ => .datetime
  | array _ => .array
  | table _ => .table
  | tables _ _ => .array

end EncryptThenMac.Toml
