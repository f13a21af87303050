import EncryptThenMac.Hash.Sha2

/-!
# Keyed hashing

HMAC turns a hash function into a message authentication code. The key is brought to the length
of a block, a longer one by hashing it first, a shorter one by zeros behind it. The inner digest
is of the key, with every byte combined with `0x36`, followed by the message; the code is the
digest of the key, combined with `0x5c`, followed by the inner digest.

As with the hash functions there are two ways to run it: `Hmac.code` on a whole message, and
`Hmac.start`, `update` and `finish` on a message in parts. They agree, since a running code is
determined by the message that it has seen (`start_eq_ofMessage`, `update_ofMessage`,
`finish_ofMessage`): parts are only a way of writing their concatenation.
-/

namespace EncryptThenMac.Hmac

variable (h : HashFunction)

/-- A key brought to the length of a block. -/
def blockKey (key : Bytes) : Bytes :=
  let short := if h.blockSize < key.length then h.digest key else key
  short ++ List.replicate (h.blockSize - short.length) 0

def maskedKey (mask : UInt8) (key : Bytes) : Bytes :=
  (blockKey h key).map (· ^^^ mask)

def code (key message : Bytes) : Bytes :=
  h.digest (maskedKey h 0x5c key ++ h.digest (maskedKey h 0x36 key ++ message))

/-! ## A message in parts -/

/-- A code in the middle of a message. -/
structure Running where
  outerKey : Bytes
  inner : h.Running

def start (key : Bytes) : Running h :=
  ⟨maskedKey h 0x5c key, HashFunction.Running.start.update (maskedKey h 0x36 key)⟩

/-- The start of a message under a key handed in from outside, or `none` for a key that the code
does not take. It takes keys of every length, the empty one among them. -/
def start? (key : Bytes) : Option (Running h) :=
  some (start h key)

namespace Running

variable {h}

def update (r : Running h) (part : Bytes) : Running h :=
  { r with inner := r.inner.update part }

def finish (r : Running h) : Bytes :=
  h.digest (r.outerKey ++ r.inner.finish)

/-- The running code that has seen one message. -/
def ofMessage (key message : Bytes) : Running h :=
  ⟨maskedKey h 0x5c key, .ofMessage (maskedKey h 0x36 key ++ message)⟩

theorem start_eq_ofMessage (key : Bytes) : start h key = ofMessage key [] := by
  simp [start, ofMessage, HashFunction.Running.update_start]

/-- A running code remembers of its parts only their concatenation. -/
theorem update_ofMessage (key message part : Bytes) :
    (ofMessage (h := h) key message).update part = ofMessage key (message ++ part) := by
  simp [ofMessage, update, HashFunction.Running.update_ofMessage]

theorem finish_ofMessage (key message : Bytes) :
    (ofMessage (h := h) key message).finish = code h key message := by
  simp [ofMessage, finish, code, HashFunction.Running.finish_ofMessage]

end Running

end EncryptThenMac.Hmac
