import EncryptThenMac.Bytes

/-!
# Iterated hash functions

The hash functions used here are all of one build: a chaining state is started at a fixed value,
a compression function takes in one block of the message after the other, and the last state is
written out. So that every message ends on a block border, and no two padded messages are the
same, a message is first lengthened by a byte `0x80`, by as few zeros as reach the border, and
by its length in bits.

`HashFunction` is that build with its parts left open. There are two ways to run it. `digest`
takes the whole message, pads it and folds. `Running` takes the message in parts as they come,
keeps the bytes that do not fill a block, and pads when it is told that the message is over.
They agree however the message was cut: what a running hash has seen is the concatenation of its
parts (`update_ofMessage`), and finishing it gives the digest of that (`finish_ofMessage`).
-/

namespace EncryptThenMac

/-- A hash function that iterates a compression function over the blocks of the padded message.
-/
structure HashFunction where
  State : Type
  blockSize : Nat
  -- The number of bytes in which the length of the message is written.
  lengthSize : Nat
  initial : State
  compress : State → Bytes → State
  output : State → Bytes

namespace HashFunction

variable (h : HashFunction)

def padding (length : Nat) : Bytes :=
  let used := length + 1 + h.lengthSize
  let zeros := (h.blockSize - used % h.blockSize) % h.blockSize
  0x80 :: List.replicate zeros 0 ++ Bytes.bigEndian h.lengthSize (8 * length)

/-- The state after the whole blocks of a byte string. -/
def absorb (state : h.State) (bytes : Bytes) : h.State :=
  (Bytes.blocks h.blockSize bytes).foldl h.compress state

def digest (message : Bytes) : Bytes :=
  h.output (h.absorb h.initial (message ++ h.padding message.length))

/-! ## A message in parts -/

/-- A hash in the middle of a message. -/
structure Running where
  -- The state after the whole blocks seen so far.
  state : h.State
  -- The bytes seen that do not fill a block yet.
  pending : Bytes
  length : Nat

namespace Running

variable {h}

def start : Running h :=
  ⟨h.initial, [], 0⟩

def update (r : Running h) (part : Bytes) : Running h :=
  let bytes := r.pending ++ part
  ⟨h.absorb r.state bytes, Bytes.remainder h.blockSize bytes, r.length + part.length⟩

def finish (r : Running h) : Bytes :=
  h.output (h.absorb r.state (r.pending ++ h.padding r.length))

/-- The running hash that has seen one message. -/
def ofMessage (message : Bytes) : Running h :=
  ⟨h.absorb h.initial message, Bytes.remainder h.blockSize message, message.length⟩

theorem update_start (message : Bytes) : (start (h := h)).update message = ofMessage message := by
  simp [start, update, ofMessage]

/-- A running hash remembers of its parts only their concatenation. -/
theorem update_ofMessage (message part : Bytes) :
    (ofMessage (h := h) message).update part = ofMessage (message ++ part) := by
  simp only [ofMessage, update, absorb, Running.mk.injEq]
  refine ⟨?_, ?_, by simp⟩
  · rw [Bytes.blocks_append message part, List.foldl_append]
  · rw [Bytes.remainder_append message part]

theorem finish_ofMessage (message : Bytes) :
    (ofMessage (h := h) message).finish = h.digest message := by
  simp only [ofMessage, finish, digest, absorb]
  rw [Bytes.blocks_append message, List.foldl_append]

end Running

end HashFunction

end EncryptThenMac
