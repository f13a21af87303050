import EncryptThenMac.Error

/-!
# Showing what holds a secret

A value that holds key material can be shown to a reader of a log or a debugger, but only as its
kind and its variant. `Redacted` is what may be shown; that there is no room in it for a byte of
a key is the point. It has a form on one line and a form on several; both end in two dots for
what is left out.
-/

namespace EncryptThenMac

/-- What may be shown of a value that holds key material. -/
structure Redacted where
  kind : String
  variant : Variant
deriving DecidableEq

namespace Redacted

def onOneLine (shown : Redacted) : String :=
  shown.kind ++ " \x7b algorithm: " ++ shown.variant.longName ++ ", .. \x7d"

def onSeveralLines (shown : Redacted) : String :=
  shown.kind ++ " \x7b\n    algorithm: " ++ shown.variant.longName ++ ",\n    ..\n\x7d"

end Redacted

end EncryptThenMac
