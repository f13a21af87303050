import EncryptThenMac.Error

/-!
# Choosing a variant

A variant is chosen by the size of a key at hand or by a name that somebody typed. Where there
is none, the error says what was asked for.
-/

namespace EncryptThenMac.Variant

def ofKeySize (bytes : Nat) : Except Error Variant :=
  match ofKeySize? bytes with
  | some variant => .ok variant
  | none => .error (.invalidKeySize bytes)

def ofName (name : String) : Except Error Variant :=
  match ofName? name with
  | some variant => .ok variant
  | none => .error (.unknownAlgorithm name)

end EncryptThenMac.Variant
