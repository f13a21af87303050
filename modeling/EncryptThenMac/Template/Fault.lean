import EncryptThenMac.Toml.Value
import EncryptThenMac.Variant

/-!
# What can be wrong with a template

A configuration text can fail to be TOML at all, or be TOML that does not say which variant is
meant. The second kind of failure has a reason for each check, and the reasons are worded here,
once. A fault found in a file carries the file's path, and is worded like the fault itself
behind it.

Two things that a parser of TOML tells are left out. It says in its own words why a text is not
TOML; here all such texts have one fault, `illFormed`, and the wording of that is a stand-in for
the parser's. And with every reason it shows the place in the text, by line and column and with
the line itself; here a reason is the reason alone. So two faults that are equal here can still
be reported for different places.
-/

namespace EncryptThenMac.Template

/-- What is wrong with a configuration text. -/
inductive Fault where
  -- No TOML at all, for whatever reason a parser has.
  | illFormed
  | notStringOrTable
  | noKey
  | severalKeys
  | unknownVariant (name : String)
  -- These three are about the value beside the variant's name.
  | notEmptyTable
  | notEmptyArray
  | notTable (found : Toml.Kind)
  | described (reason : String)
  | inFile (path : String) (fault : Fault)
deriving DecidableEq

namespace Fault

/-- The names that a configuration can have, as an error lists them. -/
def offeredNames : String :=
  ", ".intercalate (Variant.all.map fun v => "`" ++ v.configName ++ "`")

def reason : Fault → String
  | illFormed => "not well-formed TOML"
  | notStringOrTable => "wanted string or table"
  | noKey => "wanted exactly 1 element, found 0 elements"
  | severalKeys => "wanted exactly 1 element, more than 1 element"
  | unknownVariant name => "unknown variant `" ++ name ++ "`, expected one of " ++ offeredNames
  | notEmptyTable => "expected empty table"
  | notEmptyArray => "expected empty array"
  | notTable found => "expected table, found " ++ found.name
  | described reason => reason
  | inFile path fault => "Failed to parse " ++ path ++ ": " ++ fault.reason

end Fault

end EncryptThenMac.Template
