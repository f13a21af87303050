import EncryptThenMac.Sealer

/-!
# Random bytes

Vectors and new keys are drawn from a source of random bytes, which may fail. Nothing here
depends on what it gives, so a `RandomSource` is any sequence of outcomes, one for each request:
the number of bytes asked for, or the reason why there are none. An operation that draws takes
the source and hands back the source as it is afterwards, on failure as well, since a request
that failed has been made.
-/

namespace EncryptThenMac

/-- A source of random bytes, and how many requests it has had. -/
structure RandomSource where
  -- What the source answers to its `request`-th request, for `size` bytes.
  outcome : (request size : Nat) → Except String { bytes : Bytes // bytes.length = size }
  requests : Nat

namespace RandomSource

def next (source : RandomSource) : RandomSource :=
  { source with requests := source.requests + 1 }

def draw (source : RandomSource) (size : Nat) :
    Except Error { bytes : Bytes // bytes.length = size } :=
  match source.outcome source.requests size with
  | .ok bytes => .ok bytes
  | .error reason => .error (.randomSourceFailure reason)

def drawBlock (source : RandomSource) : Except Error Block :=
  (source.draw Block.size).map fun bytes => Block.ofBytes bytes.1 bytes.2

end RandomSource

def Variant.generateKey (variant : Variant) (source : RandomSource) :
    Except Error Bytes × RandomSource :=
  ((source.draw variant.keySize).map Subtype.val, source.next)

def Sealer.encrypt (sealer : Sealer) (plaintext aad : Bytes) (source : RandomSource) :
    Except Error Bytes × RandomSource :=
  (source.drawBlock.bind fun iv => sealer.sealBytes iv plaintext aad, source.next)

end EncryptThenMac
