/-!
# Byte strings

Keys, initialisation vectors, plaintexts, envelopes and tags are all strings of bytes. A byte
string is a plain list here, so that what is said about a message is said with `++`, `take`,
`drop` and `length`, and an induction over a message is an induction over a list.

Two readings of a byte string recur. As a *number*, most significant byte first: lengths and the
words of the hash functions are written that way (`bigEndian`, `ofBigEndian`). As a *sequence of
blocks* of one size: `blocks` cuts off whole blocks from the front and leaves out a last partial
one, which is why every caller either pads first or checks the length first.

Main statements: `n` bytes are written whatever the number (`length_bigEndian`), and cutting
into blocks loses nothing when the length is a multiple of the block size (`flatten_blocks`). A
message that arrives in parts has the blocks it would have had in one (`blocks_append`,
`remainder_append`).
-/

namespace EncryptThenMac

abbrev Bytes := List UInt8

namespace Bytes

/-! ## Numbers, most significant byte first -/

/-- The number `x` modulo `256 ^ n`, written in exactly `n` bytes. -/
def bigEndian : (n x : Nat) → Bytes
  | 0, _ => []
  | n + 1, x => bigEndian n (x / 256) ++ [UInt8.ofNat x]

def ofBigEndian (bytes : Bytes) : Nat :=
  bytes.foldl (fun value byte => value * 256 + byte.toNat) 0

@[simp] theorem length_bigEndian : ∀ n x : Nat, (bigEndian n x).length = n
  | 0, _ => rfl
  | n + 1, x => by simp [bigEndian, length_bigEndian n]

/-! ## Cutting into blocks -/

def pieces (size : Nat) : (count : Nat) → Bytes → List Bytes
  | 0, _ => []
  | count + 1, bytes => bytes.take size :: pieces size count (bytes.drop size)

def blocks (size : Nat) (bytes : Bytes) : List Bytes :=
  pieces size (bytes.length / size) bytes

/-- What is left behind the whole blocks: fewer than `size` bytes. -/
def remainder (size : Nat) (bytes : Bytes) : Bytes :=
  bytes.drop (size * (bytes.length / size))

theorem flatten_pieces (size : Nat) : ∀ (count : Nat) (bytes : Bytes),
    (pieces size count bytes).flatten = bytes.take (size * count)
  | 0, bytes => by simp [pieces]
  | count + 1, bytes => by
    rw [pieces, List.flatten_cons, flatten_pieces size count, Nat.mul_succ, Nat.add_comm,
      List.take_add]

theorem flatten_blocks {size : Nat} {bytes : Bytes} (h : size ∣ bytes.length) :
    (blocks size bytes).flatten = bytes := by
  rw [blocks, flatten_pieces, Nat.mul_div_cancel' h, List.take_length]

theorem pieces_append (size : Nat) : ∀ (m n : Nat) (bytes : Bytes),
    pieces size (m + n) bytes = pieces size m bytes ++ pieces size n (bytes.drop (size * m))
  | 0, n, bytes => by simp [pieces]
  | m + 1, n, bytes => by
    rw [Nat.succ_add, pieces, pieces, pieces_append size m n, List.cons_append, List.drop_drop,
      Nat.mul_succ, Nat.add_comm size]

theorem pieces_append_left (size : Nat) : ∀ (count : Nat) (x y : Bytes), size * count ≤ x.length →
    pieces size count (x ++ y) = pieces size count x
  | 0, _, _, _ => rfl
  | count + 1, x, y, h => by
    rw [Nat.mul_succ] at h
    have front : size ≤ x.length := by omega
    rw [pieces, pieces, List.take_append_of_le_length front, List.drop_append_of_le_length front,
      pieces_append_left size count]
    rw [List.length_drop]
    omega

theorem div_length_append (size : Nat) (x y : Bytes) :
    (x ++ y).length / size = x.length / size + (remainder size x ++ y).length / size := by
  rcases Nat.eq_zero_or_pos size with h | h
  · subst h; simp
  · have whole : size * (x.length / size) ≤ x.length := Nat.mul_div_le x.length size
    rw [Nat.add_comm (x.length / size), ← Nat.add_mul_div_left _ (x.length / size) h]
    simp only [remainder, List.length_append, List.length_drop]
    congr 1
    omega

/-- The whole blocks of two strings after each other: those of the first, then those of what the
first leaves over with the second. -/
theorem blocks_append {size : Nat} (x y : Bytes) :
    blocks size (x ++ y) = blocks size x ++ blocks size (remainder size x ++ y) := by
  have whole : size * (x.length / size) ≤ x.length := Nat.mul_div_le x.length size
  rw [blocks, div_length_append, pieces_append, pieces_append_left size _ x y whole,
    List.drop_append_of_le_length whole]
  rfl

theorem remainder_append {size : Nat} (x y : Bytes) :
    remainder size (x ++ y) = remainder size (remainder size x ++ y) := by
  have whole : size * (x.length / size) ≤ x.length := Nat.mul_div_le x.length size
  rw [remainder, div_length_append, Nat.mul_add, ← List.drop_drop,
    List.drop_append_of_le_length whole]
  rfl

end Bytes

end EncryptThenMac
