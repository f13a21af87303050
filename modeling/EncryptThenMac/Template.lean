import EncryptThenMac.Random
import EncryptThenMac.Toml.Document

/-!
# Key templates

A template says which variant new keys are made for. It can be written in a configuration, as
the entry `algorithm` of a TOML document; an absent entry stands for the strongest variant, and
all other entries are somebody else's.

The variant is given by its registered name, spelled exactly. There are two forms. The common
one is a string. The other is a table with the name as its only key and nothing beside it, that
is, an empty table or an empty array. The checks come in a fixed order, which shows where a
document has more than one fault: the kind of value, then the number of keys, then the name,
then what is beside it (`variantOf`).
-/

namespace EncryptThenMac

structure Template where
  variant : Variant
deriving DecidableEq

namespace Template

def default : Template :=
  ⟨.a256cbcHs512⟩

instance : Inhabited Template :=
  ⟨default⟩

/-! ## Reading -/

/-- The variant of a name, which has to be spelled as in a configuration. -/
def named (name : String) : Except Fault Variant :=
  match Variant.ofExactName? name with
  | some variant => .ok variant
  | none => .error (.unknownVariant name)

/-- Checks what is beside the name of a variant in a table. -/
def checkEmpty : Toml.Value → Except Fault Unit
  | .table [] => .ok ()
  | .array [] => .ok ()
  | .table _ => .error .notEmptyTable
  | .array _ => .error .notEmptyTable
  | .tables _ _ => .error .notEmptyArray
  | value => .error (.notTable value.kind)

/-- The variant that an entry stands for, in one of the two forms. -/
def variantOf : Toml.Value → Except Fault Variant
  | .string name => named name
  | .table [] => .error .noKey
  | .table [(name, beside)] => do
    let variant ← named name
    checkEmpty beside
    return variant
  | .table _ => .error .severalKeys
  | _ => .error .notStringOrTable

/-- The template of a document. Other entries are not looked at. -/
def ofTable (document : Toml.Table) : Except Fault Template :=
  match document.lookup "algorithm" with
  | none => .ok default
  | some value => (variantOf value).map Template.mk

/-- The template of a configuration text, or what is wrong with the text. -/
def read (text : String) : Except Fault Template :=
  match Toml.Document.parse? text with
  | none => .error .illFormed
  | some document => ofTable document

def ofText (text : String) : Except Error Template :=
  (read text).mapError Error.config

/-! ## Writing -/

/-- A configuration text that gives the template. -/
def toText (template : Template) : String :=
  "algorithm = \"" ++ template.variant.configName ++ "\"\n"

def shown (template : Template) : String :=
  "KeyTemplate \x7b algorithm: " ++ template.variant.longName ++ " \x7d"

/-! ## Using -/

def newKey (template : Template) (source : RandomSource) : Except Error Bytes × RandomSource :=
  template.variant.generateKey source

def newSealer (template : Template) (source : RandomSource) : Traced Sealer × RandomSource :=
  let (key, source) := template.newKey source
  (Traced.andThen (.quiet key) Sealer.ofKey, source)

end Template

end EncryptThenMac
