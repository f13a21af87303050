import EncryptThenMac.Cbc

/-!
# Chaining on byte strings

`Cbc` proves that the two directions undo each other on sequences of blocks. Messages are byte
strings, and between the two stands the cut into blocks, which leaves out a last piece of fewer
than sixteen bytes. So the laws below have *whole blocks* as a hypothesis, and they have it on
one side only: what comes out of either direction is the bytes of a sequence of blocks and is
whole by construction.

`decrypt` also refuses. On whole blocks, one or more, it never does (`decrypt_of_whole`), and
when it gives a result the input was of that kind (`whole_of_decrypt`).

Both directions can be cut at a block border (`encrypt_append`, `decrypt_append`). `carry` is what
they hand across the cut. Where a law is about a block in its place, it speaks of the sixteen bytes
there (`Bytes.block`), and `block_join_eq_iff` takes it to the sequence of blocks.
-/

namespace EncryptThenMac

/-- Whole blocks in front are cut off by themselves. -/
theorem Block.split_append {front : Bytes} (hfront : size ∣ front.length) (rest : Bytes) :
    split (front ++ rest) = split front ++ split rest := by
  have hblocks : ∀ xs : List Block, split (join xs ++ rest) = xs ++ split rest := by
    intro xs
    induction xs with
    | nil => rfl
    | cons x xs ih => rw [join_cons, List.append_assoc, split_toBytes_append, ih, List.cons_append]
  have hsplit := hblocks (split front)
  rwa [join_split hfront] at hsplit

/-! ## Blocks by position -/

/-- The bytes of block `i`: sixteen, or none behind the last block. -/
def Bytes.block (bytes : Bytes) (i : Nat) : Bytes :=
  (bytes.drop (Block.size * i)).take Block.size

theorem Bytes.take_append_block (bytes : Bytes) (i : Nat) :
    bytes.take (Block.size * i) ++ block bytes i = bytes.take (Block.size * (i + 1)) := by
  rw [block, Nat.mul_succ, List.take_add]

theorem Block.block_join (xs : List Block) (i : Nat) :
    Bytes.block (join xs) i = xs[i]?.elim [] toBytes := by
  have hone : (xs.drop i).take 1 = xs[i]?.toList := by rw [List.take_one, List.head?_drop]
  rw [Bytes.block, drop_join, ← Nat.mul_one size, take_join, hone]
  cases xs[i]? with
  | none => rfl
  | some x => exact List.append_nil _

theorem Block.elim_toBytes_injective : ∀ {x y : Option Block},
    x.elim [] toBytes = y.elim [] toBytes → x = y
  | none, none, _ => rfl
  | none, some y, h => absurd h.symm y.toBytes_ne_nil
  | some x, none, h => absurd h x.toBytes_ne_nil
  | some x, some y, h => by rw [toBytes_injective (show x.toBytes = y.toBytes from h)]

/-- Blocks are told apart by their bytes, and from none at all. -/
theorem Block.block_join_eq_iff {xs ys : List Block} {i : Nat} :
    Bytes.block (join xs) i = Bytes.block (join ys) i ↔ xs[i]? = ys[i]? := by
  rw [block_join, block_join]
  exact ⟨elim_toBytes_injective, fun h => by rw [h]⟩

namespace Cbc

variable {key : Aes.Key} {iv : Block}

/-! ## Lengths -/

theorem size_dvd_length_encrypt (bytes : Bytes) : Block.size ∣ (encrypt key iv bytes).length := by
  rw [encrypt, Block.length_join]
  exact Nat.dvd_mul_right _ _

@[simp] theorem length_encrypt {bytes : Bytes} (hdvd : Block.size ∣ bytes.length) :
    (encrypt key iv bytes).length = bytes.length := by
  rw [encrypt, Block.length_join, length_encryptBlocks, ← Block.length_join, Block.join_split hdvd]

theorem encrypt_ne_nil {bytes : Bytes} (hne : bytes ≠ []) (hdvd : Block.size ∣ bytes.length) :
    encrypt key iv bytes ≠ [] := by
  intro h
  have hlen : (encrypt key iv bytes).length = bytes.length := length_encrypt hdvd
  rw [h] at hlen
  exact hne (List.eq_nil_of_length_eq_zero hlen.symm)

/-! ## What decryption takes -/

/-- Whole blocks, one or more, are never refused. -/
theorem decrypt_of_whole {bytes : Bytes} (hne : bytes ≠ []) (hdvd : Block.size ∣ bytes.length) :
    decrypt key iv bytes = .ok (Block.join (decryptBlocks key iv (Block.split bytes))) := by
  have hlen : bytes.length ≠ 0 := fun h => hne (List.eq_nil_of_length_eq_zero h)
  rw [decrypt, if_neg]
  rintro (h | h)
  · exact hlen h
  · exact h (Nat.mod_eq_zero_of_dvd hdvd)

theorem decrypt_join {ys : List Block} (hne : ys ≠ []) :
    decrypt key iv (Block.join ys) = .ok (Block.join (decryptBlocks key iv ys)) := by
  have hdvd : Block.size ∣ (Block.join ys).length := ⟨ys.length, Block.length_join ys⟩
  have hjoin : Block.join ys ≠ [] := by
    intro h
    rw [← Block.split_join ys, h] at hne
    exact hne (by simp [Block.split])
  rw [decrypt_of_whole hjoin hdvd, Block.split_join]

/-- What is not refused is whole blocks, one or more. -/
theorem whole_of_decrypt {bytes padded : Bytes} (h : decrypt key iv bytes = .ok padded) :
    bytes ≠ [] ∧ Block.size ∣ bytes.length := by
  unfold decrypt at h
  split at h
  · exact absurd h (by simp)
  · next hwhole =>
    refine ⟨?_, Nat.dvd_of_mod_eq_zero (by omega)⟩
    rintro rfl
    exact hwhole (Or.inl rfl)

theorem size_dvd_of_decrypt {bytes padded : Bytes} (h : decrypt key iv bytes = .ok padded) :
    Block.size ∣ padded.length := by
  obtain ⟨hne, hdvd⟩ := whole_of_decrypt h
  rw [decrypt_of_whole hne hdvd] at h
  cases h
  rw [Block.length_join]
  exact Nat.dvd_mul_right _ _

/-! ## The two directions undo each other -/

theorem decrypt_encrypt {bytes : Bytes} (hne : bytes ≠ []) (hdvd : Block.size ∣ bytes.length) :
    decrypt key iv (encrypt key iv bytes) = .ok bytes := by
  rw [decrypt_of_whole (encrypt_ne_nil hne hdvd) (size_dvd_length_encrypt bytes), encrypt,
    Block.split_join, decryptBlocks_encryptBlocks, Block.join_split hdvd]

/-- Nothing else decrypts to a byte string than what it is encrypted to. -/
theorem encrypt_of_decrypt {bytes padded : Bytes} (h : decrypt key iv bytes = .ok padded) :
    encrypt key iv padded = bytes := by
  obtain ⟨hne, hdvd⟩ := whole_of_decrypt h
  rw [decrypt_of_whole hne hdvd] at h
  cases h
  rw [encrypt, Block.split_join, encryptBlocks_decryptBlocks, Block.join_split hdvd]

theorem length_of_decrypt {bytes padded : Bytes} (h : decrypt key iv bytes = .ok padded) :
    padded.length = bytes.length := by
  rw [← encrypt_of_decrypt h]
  exact (length_encrypt (size_dvd_of_decrypt h)).symm

/-! ## Messages behind each other

What is carried from one block to the next is a block of ciphertext, the last that encryption
has written or the last that decryption has read. So a message can be cut at every block border:
what stands behind the cut is processed as a message of its own, with the block of ciphertext in
front of the cut for its vector, and whatever else is in front of the cut does not matter. -/

/-- What is carried across is the last block written. -/
theorem encryptBlocks_append (ys : List Block) : ∀ (previous : Block) (xs : List Block),
    encryptBlocks key previous (xs ++ ys) =
      encryptBlocks key previous xs ++
        encryptBlocks key ((encryptBlocks key previous xs).getLastD previous) ys
  | _, [] => rfl
  | previous, x :: xs => by
    rw [List.cons_append, encryptBlocks, encryptBlocks_append ys _ xs, encryptBlocks,
      List.getLastD_cons, List.cons_append]

/-- What is carried across is the last block read. -/
theorem decryptBlocks_append (ys : List Block) : ∀ (previous : Block) (xs : List Block),
    decryptBlocks key previous (xs ++ ys) =
      decryptBlocks key previous xs ++ decryptBlocks key (xs.getLastD previous) ys
  | _, [] => rfl
  | previous, x :: xs => by
    rw [List.cons_append, decryptBlocks, decryptBlocks_append ys x xs, decryptBlocks,
      List.getLastD_cons, List.cons_append]

/-- The block of ciphertext that is carried past a piece of it: its last one, or what was carried
up to it if it has none. -/
def carry (previous : Block) (ciphertext : Bytes) : Block :=
  (Block.split ciphertext).getLastD previous

theorem carry_append_toBytes {front : Bytes} (hfront : Block.size ∣ front.length)
    (previous y : Block) : carry previous (front ++ y.toBytes) = y := by
  have hlast : Block.split y.toBytes = [y] := Block.split_toBytes_append y []
  rw [carry, Block.split_append hfront, hlast, List.getLastD_concat]

theorem encrypt_append {front : Bytes} (hfront : Block.size ∣ front.length) (rest : Bytes) :
    encrypt key iv (front ++ rest) =
      encrypt key iv front ++ encrypt key (carry iv (encrypt key iv front)) rest := by
  rw [carry, encrypt, encrypt, encrypt, Block.split_join, Block.split_append hfront,
    encryptBlocks_append, Block.join_append]

theorem decrypt_append {front rest opened opened' : Bytes} (h : decrypt key iv front = .ok opened)
    (h' : decrypt key (carry iv front) rest = .ok opened') :
    decrypt key iv (front ++ rest) = .ok (opened ++ opened') := by
  obtain ⟨hne, hdvd⟩ := whole_of_decrypt h
  obtain ⟨hne', hdvd'⟩ := whole_of_decrypt h'
  rw [decrypt_of_whole hne hdvd] at h
  rw [decrypt_of_whole hne' hdvd'] at h'
  obtain rfl := Except.ok.inj h
  obtain rfl := Except.ok.inj h'
  have hboth : Block.size ∣ (front ++ rest).length := by
    rw [List.length_append]
    exact Nat.dvd_add hdvd hdvd'
  rw [decrypt_of_whole (List.append_ne_nil_of_left_ne_nil hne rest) hboth,
    Block.split_append hdvd, decryptBlocks_append, Block.join_append, carry]

/-- A vector and the ciphertext under it, moved behind other blocks. -/
theorem exists_decrypt_behind {front body padded : Bytes} (iv' : Block)
    (hfront : Block.size ∣ front.length) (h : decrypt key iv body = .ok padded) :
    ∃ other : Bytes, other.length = front.length + Block.size ∧
      decrypt key iv' (front ++ iv.toBytes ++ body) = .ok (other ++ padded) := by
  have hlen : (front ++ iv.toBytes).length = front.length + Block.size := by
    rw [List.length_append, Block.length_toBytes]
  have hne : front ++ iv.toBytes ≠ [] :=
    List.ne_nil_of_length_pos (by rw [hlen]; exact Nat.lt_add_left _ (by decide))
  have hdvd : Block.size ∣ (front ++ iv.toBytes).length := by
    rw [hlen]
    exact Nat.dvd_add hfront (Nat.dvd_refl _)
  have hother : decrypt key iv' (front ++ iv.toBytes) = .ok _ := decrypt_of_whole hne hdvd
  refine ⟨_, (length_of_decrypt hother).trans hlen, decrypt_append hother ?_⟩
  rw [carry_append_toBytes hfront]
  exact h

end Cbc

end EncryptThenMac
