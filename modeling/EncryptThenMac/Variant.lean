import EncryptThenMac.Aes.KeySchedule
import EncryptThenMac.Hash.Sha2

/-!
# The three variants

The construction comes in three strengths, and a strength settles everything: the size of the
cipher key, of the authentication key and of the tag, which are all equal, and the hash
function. `Variant` is the table. A variant is found by the size of a combined key
(`ofKeySize?`) or by its name, where letters of either case are accepted (`ofName?`); both agree
with the table (`ofKeySize?_eq_some_iff`, `ofName?_name`).

There are two tables of names. `name` is the registered name, which is also how a variant is shown
(`toString`) and what somebody types. `configName` is how a configuration spells a variant, and
there it is spelled exactly (`ofExactName?`). Nothing but `configName_eq_name` says that the two
are the same, and what is proved of configurations in terms of names goes through it.
-/

namespace EncryptThenMac

inductive Variant where
  | a128cbcHs256
  | a192cbcHs384
  | a256cbcHs512
deriving DecidableEq

namespace Variant

/-- All variants, the weakest first. -/
def all : List Variant :=
  [a128cbcHs256, a192cbcHs384, a256cbcHs512]

@[simp] theorem mem_all (v : Variant) : v ∈ all := by
  cases v <;> simp [all]

/-! ## Sizes -/

def halfKeySize : Variant → Nat
  | a128cbcHs256 => 16
  | a192cbcHs384 => 24
  | a256cbcHs512 => 32

def keySize (v : Variant) : Nat :=
  v.halfKeySize * 2

def tagSize (v : Variant) : Nat :=
  v.halfKeySize

def cipherKeySize : Variant → Aes.KeySize
  | a128cbcHs256 => .bits128
  | a192cbcHs384 => .bits192
  | a256cbcHs512 => .bits256

def hash : Variant → HashFunction
  | a128cbcHs256 => .sha256
  | a192cbcHs384 => .sha384
  | a256cbcHs512 => .sha512

def ofKeySize? : Nat → Option Variant
  | 32 => some a128cbcHs256
  | 48 => some a192cbcHs384
  | 64 => some a256cbcHs512
  | _ => none

theorem bytes_cipherKeySize (v : Variant) : v.cipherKeySize.bytes = v.halfKeySize := by
  cases v <;> rfl

theorem ofKeySize?_eq_some_iff {n : Nat} {v : Variant} : ofKeySize? n = some v ↔ n = v.keySize := by
  constructor
  · unfold ofKeySize?
    split <;> intro h <;> cases h <;> rfl
  · rintro rfl; cases v <;> rfl

/-! ## Names -/

/-- The registered name. -/
def name : Variant → String
  | a128cbcHs256 => "A128CBC-HS256"
  | a192cbcHs384 => "A192CBC-HS384"
  | a256cbcHs512 => "A256CBC-HS512"

instance : ToString Variant :=
  ⟨name⟩

/-- The name in a configuration, for reading and for writing. -/
def configName : Variant → String
  | a128cbcHs256 => "A128CBC-HS256"
  | a192cbcHs384 => "A192CBC-HS384"
  | a256cbcHs512 => "A256CBC-HS512"

/-- The name in a rendering of a value that holds a variant. -/
def longName : Variant → String
  | a128cbcHs256 => "Aes128CbcHmacSha256"
  | a192cbcHs384 => "Aes192CbcHmacSha384"
  | a256cbcHs512 => "Aes256CbcHmacSha512"

/-- Two texts are the same up to the case of the letters A to Z; other characters have no case
here. -/
def sameLetters (s t : String) : Bool :=
  s.toList.map Char.toLower == t.toList.map Char.toLower

/-- The variant that somebody names who types its registered name. -/
def ofName? (s : String) : Option Variant :=
  all.find? fun v => sameLetters v.name s

/-- The variant that a configuration names. -/
def ofExactName? (s : String) : Option Variant :=
  all.find? fun v => v.configName == s

theorem toString_eq_name (v : Variant) : toString v = v.name :=
  rfl

theorem configName_eq_name (v : Variant) : v.configName = v.name := by
  cases v <;> rfl

@[simp] theorem ofName?_name (v : Variant) : ofName? v.name = some v := by
  cases v <;> decide

@[simp] theorem ofExactName?_name (v : Variant) : ofExactName? v.name = some v := by
  cases v <;> decide

theorem name_of_ofExactName? {s : String} {v : Variant} (h : ofExactName? s = some v) :
    v.name = s := by
  have hfound : v.configName = s := by simpa using List.find?_some h
  rw [← configName_eq_name, hfound]

end Variant

end EncryptThenMac
