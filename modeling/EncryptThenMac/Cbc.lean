import EncryptThenMac.Aes.Cipher
import EncryptThenMac.Error

/-!
# Cipher block chaining

Each block of a message is combined with the block of ciphertext before it and then encrypted;
the first is combined with an initialisation vector. Going back, a block is decrypted and then
combined with the block of *ciphertext* before it. The two directions carry the chaining value
differently, encryption from what it has just written and decryption from what it has just read,
and that is all there is to `encryptBlocks` and `decryptBlocks`.

Messages are byte strings. `encrypt` is for those that fill whole blocks and at least one, which
is for its callers to see to: they pad first. `decrypt` gets its input from outside and checks.

Main statements: the two directions undo each other (`decryptBlocks_encryptBlocks`,
`encryptBlocks_decryptBlocks`), and keep the number of blocks.
-/

namespace EncryptThenMac.Cbc

variable (key : Aes.Key)

/-- The ciphertext of a sequence of blocks, after the chaining value `previous`. -/
def encryptBlocks : (previous : Block) → List Block → List Block
  | _, [] => []
  | previous, x :: xs =>
    let y := key.encryptBlock (x ^^^ previous)
    y :: encryptBlocks y xs

def decryptBlocks : (previous : Block) → List Block → List Block
  | _, [] => []
  | previous, y :: ys => (key.decryptBlock y ^^^ previous) :: decryptBlocks y ys

def encrypt (iv : Block) (padded : Bytes) : Bytes :=
  Block.join (encryptBlocks key iv (Block.split padded))

/-- The plaintext, padding included, of a byte string that has to fill one or more whole blocks.
-/
def decrypt (iv : Block) (ciphertext : Bytes) : Except Error Bytes :=
  if ciphertext.length = 0 ∨ ciphertext.length % Block.size ≠ 0 then
    .error (.malformedCiphertext .notWholeBlocks)
  else .ok (Block.join (decryptBlocks key iv (Block.split ciphertext)))

variable {key}

@[simp] theorem length_encryptBlocks : ∀ (previous : Block) (xs : List Block),
    (encryptBlocks key previous xs).length = xs.length
  | _, [] => rfl
  | previous, x :: xs => by
    rw [encryptBlocks, List.length_cons, length_encryptBlocks, List.length_cons]

@[simp] theorem length_decryptBlocks : ∀ (previous : Block) (ys : List Block),
    (decryptBlocks key previous ys).length = ys.length
  | _, [] => rfl
  | previous, y :: ys => by
    rw [decryptBlocks, List.length_cons, length_decryptBlocks, List.length_cons]

@[simp] theorem decryptBlocks_encryptBlocks : ∀ (previous : Block) (xs : List Block),
    decryptBlocks key previous (encryptBlocks key previous xs) = xs
  | _, [] => rfl
  | previous, x :: xs => by
    simp [encryptBlocks, decryptBlocks, decryptBlocks_encryptBlocks _ xs]

@[simp] theorem encryptBlocks_decryptBlocks : ∀ (previous : Block) (ys : List Block),
    encryptBlocks key previous (decryptBlocks key previous ys) = ys
  | _, [] => rfl
  | previous, y :: ys => by
    simp [encryptBlocks, decryptBlocks, encryptBlocks_decryptBlocks _ ys]

end EncryptThenMac.Cbc
