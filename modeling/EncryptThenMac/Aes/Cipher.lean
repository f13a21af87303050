import EncryptThenMac.Aes.KeySchedule
import EncryptThenMac.Aes.Layers

/-!
# The block cipher

A key holds its size and its round keys, expanded once when the key is made. Encryption adds the
first round key and then goes through the others, a round for each; the last round leaves out
the mixing of the columns. Decryption undoes the rounds from the last to the first.

Both walk down the same list of round keys, which is what makes them inverse for *any* list:
`decryptBlock_encryptBlock` and `encryptBlock_decryptBlock` are inductions over the list that
undo one layer at a time, and they ask nothing of how the list was made. Hence the block
function of every key is a bijection (`encryptBlock_injective`, `decryptBlock_injective`).
-/

namespace EncryptThenMac.Aes

structure Key where
  size : KeySize
  -- The round keys in the order of encryption.
  roundKeys : List Block
deriving DecidableEq

namespace Key

def ofBytes? (bytes : Bytes) : Option Key :=
  (KeySize.ofBytes? bytes.length).map fun size => ⟨size, size.roundKeys bytes⟩

end Key

/-! ## Rounds -/

/-- The rounds of encryption; the last key is for the round without mixing. -/
def encryptRounds : List Block → Block → Block
  | [], x => x
  | [key], x => x.substitute.rotateRows ^^^ key
  | key :: keys, x => encryptRounds keys (x.substitute.rotateRows.mixColumns ^^^ key)

def decryptRounds : List Block → Block → Block
  | [], x => x
  | [key], x => (x ^^^ key).unrotateRows.unsubstitute
  | key :: keys, x => (decryptRounds keys x ^^^ key).unmixColumns.unrotateRows.unsubstitute

theorem decryptRounds_encryptRounds : ∀ (keys : List Block) (x : Block),
    decryptRounds keys (encryptRounds keys x) = x
  | [], _ => rfl
  | [key], x => by simp [encryptRounds, decryptRounds]
  | key :: next :: keys, x => by
    rw [encryptRounds, decryptRounds, decryptRounds_encryptRounds (next :: keys)]
    · simp
    all_goals simp

theorem encryptRounds_decryptRounds : ∀ (keys : List Block) (x : Block),
    encryptRounds keys (decryptRounds keys x) = x
  | [], _ => rfl
  | [key], x => by simp [encryptRounds, decryptRounds]
  | key :: next :: keys, x => by
    rw [decryptRounds, encryptRounds]
    · simp [encryptRounds_decryptRounds (next :: keys)]
    all_goals simp

/-! ## Blocks -/

def encryptWith : List Block → Block → Block
  | [], x => x
  | key :: keys, x => encryptRounds keys (x ^^^ key)

def decryptWith : List Block → Block → Block
  | [], x => x
  | key :: keys, x => decryptRounds keys x ^^^ key

namespace Key

def encryptBlock (key : Key) (x : Block) : Block :=
  encryptWith key.roundKeys x

def decryptBlock (key : Key) (x : Block) : Block :=
  decryptWith key.roundKeys x

@[simp] theorem decryptBlock_encryptBlock (key : Key) (x : Block) :
    key.decryptBlock (key.encryptBlock x) = x := by
  obtain ⟨_, keys⟩ := key
  cases keys with
  | nil => rfl
  | cons key keys =>
    simp [decryptBlock, encryptBlock, encryptWith, decryptWith, decryptRounds_encryptRounds]

@[simp] theorem encryptBlock_decryptBlock (key : Key) (x : Block) :
    key.encryptBlock (key.decryptBlock x) = x := by
  obtain ⟨_, keys⟩ := key
  cases keys with
  | nil => rfl
  | cons key keys =>
    simp [decryptBlock, encryptBlock, encryptWith, decryptWith, encryptRounds_decryptRounds]

theorem encryptBlock_injective (key : Key) {x y : Block}
    (h : key.encryptBlock x = key.encryptBlock y) : x = y := by
  rw [← key.decryptBlock_encryptBlock x, h, decryptBlock_encryptBlock]

theorem decryptBlock_injective (key : Key) {x y : Block}
    (h : key.decryptBlock x = key.decryptBlock y) : x = y := by
  rw [← key.encryptBlock_decryptBlock x, h, encryptBlock_decryptBlock]

end Key

end EncryptThenMac.Aes
