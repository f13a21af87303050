import EncryptThenMac.Bytes

/-!
# Words and blocks

The cipher works on blocks of sixteen bytes, seen as four columns of four. A column is also the
unit in which a key is expanded, so it has one type under its own name, `Word`, and a `Block` is
four of them. Both are structures with a field per byte and not lists with a length beside them:
a step of the cipher is then a rearrangement of fields, and that it can be undone is read off
the fields.

A message reaches the cipher as a byte string. `Block.split` cuts one into blocks, and leaves
out a last piece of fewer than sixteen bytes; `Block.join` puts blocks back together.
`split_join` and `join_split` say that for whole blocks neither loses anything.
-/

namespace EncryptThenMac

/-- Four bytes: a column of a block, or a unit of an expanded key. -/
structure Word where
  b0 : UInt8
  b1 : UInt8
  b2 : UInt8
  b3 : UInt8
deriving DecidableEq

namespace Word

def zero : Word :=
  ⟨0, 0, 0, 0⟩

instance : Inhabited Word :=
  ⟨zero⟩

def xor (v w : Word) : Word :=
  ⟨v.b0 ^^^ w.b0, v.b1 ^^^ w.b1, v.b2 ^^^ w.b2, v.b3 ^^^ w.b3⟩

instance : XorOp Word :=
  ⟨xor⟩

def map (f : UInt8 → UInt8) (w : Word) : Word :=
  ⟨f w.b0, f w.b1, f w.b2, f w.b3⟩

def toBytes (w : Word) : Bytes :=
  [w.b0, w.b1, w.b2, w.b3]

/-- The words of a byte string; a last piece of fewer than four bytes is left out. -/
def split : Bytes → List Word
  | b0 :: b1 :: b2 :: b3 :: rest => ⟨b0, b1, b2, b3⟩ :: split rest
  | _ => []

theorem xor_def (v w : Word) :
    v ^^^ w = ⟨v.b0 ^^^ w.b0, v.b1 ^^^ w.b1, v.b2 ^^^ w.b2, v.b3 ^^^ w.b3⟩ := rfl

theorem xor_assoc (u v w : Word) : u ^^^ v ^^^ w = u ^^^ (v ^^^ w) := by
  simp only [xor_def, UInt8.xor_assoc]

theorem xor_comm (v w : Word) : v ^^^ w = w ^^^ v := by
  simp only [xor_def, UInt8.xor_comm]

@[simp] theorem xor_xor_cancel (v w : Word) : v ^^^ w ^^^ w = v := by
  simp only [xor_def, UInt8.xor_assoc, UInt8.xor_self, UInt8.xor_zero]

end Word

/-- Sixteen bytes, as four columns. -/
structure Block where
  c0 : Word
  c1 : Word
  c2 : Word
  c3 : Word
deriving DecidableEq

namespace Block

def size : Nat := 16

def zero : Block :=
  ⟨.zero, .zero, .zero, .zero⟩

instance : Inhabited Block :=
  ⟨zero⟩

def xor (x y : Block) : Block :=
  ⟨x.c0 ^^^ y.c0, x.c1 ^^^ y.c1, x.c2 ^^^ y.c2, x.c3 ^^^ y.c3⟩

instance : XorOp Block :=
  ⟨xor⟩

def map (f : Word → Word) (x : Block) : Block :=
  ⟨f x.c0, f x.c1, f x.c2, f x.c3⟩

def toBytes (x : Block) : Bytes :=
  x.c0.toBytes ++ x.c1.toBytes ++ x.c2.toBytes ++ x.c3.toBytes

/-- The block at the front of a byte string and what follows it, or `none` for fewer than
sixteen bytes. -/
def take? : Bytes → Option (Block × Bytes)
  | b0 :: b1 :: b2 :: b3 :: b4 :: b5 :: b6 :: b7 :: b8 :: b9 :: b10 :: b11 :: b12 :: b13 :: b14 :: b15
      :: rest =>
    some (⟨⟨b0, b1, b2, b3⟩, ⟨b4, b5, b6, b7⟩, ⟨b8, b9, b10, b11⟩, ⟨b12, b13, b14, b15⟩⟩, rest)
  | _ => none

def split : Bytes → List Block
  | b0 :: b1 :: b2 :: b3 :: b4 :: b5 :: b6 :: b7 :: b8 :: b9 :: b10 :: b11 :: b12 :: b13 :: b14 :: b15
      :: rest =>
    ⟨⟨b0, b1, b2, b3⟩, ⟨b4, b5, b6, b7⟩, ⟨b8, b9, b10, b11⟩, ⟨b12, b13, b14, b15⟩⟩ :: split rest
  | _ => []

def join (blocks : List Block) : Bytes :=
  blocks.flatMap toBytes

/-! ## The block operations on fields -/

theorem xor_def (x y : Block) :
    x ^^^ y = ⟨x.c0 ^^^ y.c0, x.c1 ^^^ y.c1, x.c2 ^^^ y.c2, x.c3 ^^^ y.c3⟩ := rfl

theorem xor_assoc (x y z : Block) : x ^^^ y ^^^ z = x ^^^ (y ^^^ z) := by
  simp only [xor_def, Word.xor_assoc]

theorem xor_comm (x y : Block) : x ^^^ y = y ^^^ x := by
  simp only [xor_def, Word.xor_comm]

@[simp] theorem xor_xor_cancel (x y : Block) : x ^^^ y ^^^ y = x := by
  simp [xor_def]

/-! ## Splitting and joining -/

@[simp] theorem length_toBytes (x : Block) : x.toBytes.length = size := rfl

theorem toBytes_ne_nil (x : Block) : x.toBytes ≠ [] :=
  List.ne_nil_of_length_pos (by rw [length_toBytes]; decide)

@[simp] theorem join_nil : join [] = [] := rfl

@[simp] theorem join_cons (x : Block) (xs : List Block) :
    join (x :: xs) = x.toBytes ++ join xs := by
  simp [join]

@[simp] theorem join_append (xs ys : List Block) : join (xs ++ ys) = join xs ++ join ys := by
  simp [join]

@[simp] theorem length_join (xs : List Block) : (join xs).length = size * xs.length := by
  induction xs with
  | nil => rfl
  | cons x xs ih => rw [join_cons, List.length_append, length_toBytes, ih, List.length_cons,
      Nat.mul_succ, Nat.add_comm]

theorem take_join : ∀ (n : Nat) (xs : List Block), (join xs).take (size * n) = join (xs.take n)
  | 0, _ => rfl
  | n + 1, [] => by simp
  | n + 1, x :: xs => by
    have hx : x.toBytes.length ≤ size * (n + 1) := by rw [length_toBytes, Nat.mul_succ]; omega
    rw [join_cons, List.take_append, List.take_of_length_le hx, length_toBytes, Nat.mul_succ,
      Nat.add_sub_cancel, take_join n xs, List.take_succ_cons, join_cons]

theorem drop_join : ∀ (n : Nat) (xs : List Block), (join xs).drop (size * n) = join (xs.drop n)
  | 0, _ => rfl
  | n + 1, [] => by simp
  | n + 1, x :: xs => by
    rw [join_cons, Nat.mul_succ, Nat.add_comm, ← List.drop_drop, List.drop_left' (length_toBytes x),
      drop_join n xs, List.drop_succ_cons]

@[simp] theorem take?_toBytes_append (x : Block) (rest : Bytes) :
    take? (x.toBytes ++ rest) = some (x, rest) := rfl

theorem toBytes_injective {x y : Block} (h : x.toBytes = y.toBytes) : x = y := by
  have hx : take? (x.toBytes ++ []) = some (x, []) := take?_toBytes_append x []
  rw [h, take?_toBytes_append] at hx
  cases hx
  rfl

@[simp] theorem split_toBytes_append (x : Block) (rest : Bytes) :
    split (x.toBytes ++ rest) = x :: split rest := by
  simp [toBytes, Word.toBytes, split]

@[simp] theorem split_join (xs : List Block) : split (join xs) = xs := by
  induction xs with
  | nil => simp [split]
  | cons x xs ih => rw [join_cons, split_toBytes_append, ih]

/-- A byte string that starts with a block is that block's bytes and the rest. -/
theorem eq_of_take? {bytes rest : Bytes} {x : Block} (h : take? bytes = some (x, rest)) :
    bytes = x.toBytes ++ rest := by
  rw [take?.eq_def] at h
  split at h
  · cases h; rfl
  · exact absurd h (by simp)

theorem exists_take? {bytes : Bytes} (h : size ≤ bytes.length) :
    ∃ x rest, take? bytes = some (x, rest) := by
  match bytes, h with
  | b0 :: b1 :: b2 :: b3 :: b4 :: b5 :: b6 :: b7 :: b8 :: b9 :: b10 :: b11 :: b12 :: b13 :: b14 :: b15
      :: rest, _ => exact ⟨_, _, rfl⟩

def ofBytes (bytes : Bytes) (h : bytes.length = size) : Block :=
  ((take? bytes).get (by
    obtain ⟨x, rest, hx⟩ := exists_take? (Nat.le_of_eq h.symm)
    rw [hx]; rfl)).1

@[simp] theorem toBytes_ofBytes (bytes : Bytes) (h : bytes.length = size) :
    (ofBytes bytes h).toBytes = bytes := by
  obtain ⟨x, rest, hx⟩ := exists_take? (Nat.le_of_eq h.symm)
  have hb := eq_of_take? hx
  have hr : rest = [] := by
    rw [hb, List.length_append, length_toBytes] at h
    exact List.eq_nil_of_length_eq_zero (by omega)
  subst hr
  simp only [ofBytes, hx, Option.get_some]
  rw [hb, List.append_nil]

theorem join_split : ∀ {bytes : Bytes}, size ∣ bytes.length → join (split bytes) = bytes := by
  intro bytes h
  obtain ⟨n, hn⟩ := h
  induction n generalizing bytes with
  | zero =>
    have : bytes = [] := List.eq_nil_of_length_eq_zero hn
    subst this
    simp [split]
  | succ n ih =>
    obtain ⟨x, rest, hx⟩ := @exists_take? bytes (by rw [hn]; unfold size; omega)
    have hb := eq_of_take? hx
    subst hb
    rw [split_toBytes_append, join_cons, ih]
    rw [List.length_append, length_toBytes] at hn
    unfold size at *
    omega

end Block

end EncryptThenMac
