import EncryptThenMac.Proofs.WholeBlocks

/-!
# Chaining piece by piece

A long message need not be at hand as a whole. It can be processed in pieces of whole blocks, if
each piece is given the block of ciphertext in front of it for its vector. For encryption that
block is the end of what the piece before has been turned *into*; for decryption it is the end of
the piece before *itself*. `encryptPieces` and `decryptPieces` are these two loops, and the result
is that of one call on the whole message, wherever it was cut.

The laws for one cut are `encrypt_append` and `decrypt_append`. This file says where the block
that they hand across is found, as the last sixteen bytes (`toBytes_carry`), and goes from one cut
to any number by induction on the pieces, for every block that is carried into the first.

Decryption needs less than a whole message. The end of a ciphertext, from any block border on, can
be decrypted with nothing but the block in front of it (`decrypt_drop`).
-/

namespace EncryptThenMac

theorem size_dvd_length_flatten {pieces : List Bytes}
    (h : ∀ piece ∈ pieces, Block.size ∣ piece.length) : Block.size ∣ pieces.flatten.length := by
  induction pieces with
  | nil => exact Nat.dvd_zero _
  | cons piece pieces ih =>
    rw [List.flatten_cons, List.length_append]
    refine Nat.dvd_add (h piece List.mem_cons_self) (ih ?_)
    intro other hother
    exact h other (List.mem_cons_of_mem piece hother)

theorem wholeBlocks_flatten {pieces : List Bytes} (hne : pieces ≠ [])
    (h : ∀ piece ∈ pieces, WholeBlocks piece) : WholeBlocks pieces.flatten := by
  refine ⟨?_, size_dvd_length_flatten fun piece hpiece => (h piece hpiece).size_dvd⟩
  intro hnil
  obtain ⟨piece, hpiece⟩ := List.exists_mem_of_ne_nil pieces hne
  exact (h piece hpiece).ne_nil (List.flatten_eq_nil_iff.mp hnil piece hpiece)

/-- A last block can be told from the rest. -/
theorem WholeBlocks.exists_last {bytes : Bytes} (h : WholeBlocks bytes) :
    ∃ (front : Bytes) (last : Block), Block.size ∣ front.length ∧ bytes = front ++ last.toBytes := by
  obtain ⟨xs, hne, rfl⟩ := h.exists_join
  refine ⟨Block.join xs.dropLast, xs.getLast hne, ⟨_, Block.length_join _⟩, ?_⟩
  have hlast : Block.join [xs.getLast hne] = (xs.getLast hne).toBytes := List.append_nil _
  rw [← hlast, ← Block.join_append, List.dropLast_concat_getLast]

namespace Cbc

variable {key : Aes.Key} {iv : Block}

/-! ## One cut -/

/-- What is carried past a piece are its last sixteen bytes. -/
theorem toBytes_carry {bytes : Bytes} (h : WholeBlocks bytes) (previous : Block) :
    (carry previous bytes).toBytes = bytes.drop (bytes.length - Block.size) := by
  obtain ⟨front, last, hfront, rfl⟩ := h.exists_last
  rw [carry_append_toBytes hfront, List.length_append, Block.length_toBytes, Nat.add_sub_cancel,
    List.drop_left' rfl]

theorem exists_decrypt_append (key : Aes.Key) (iv : Block) {front rest : Bytes}
    (hfront : WholeBlocks front) (hrest : WholeBlocks rest) :
    ∃ opened opened', decrypt key iv front = .ok opened ∧
      decrypt key (carry iv front) rest = .ok opened' ∧
      decrypt key iv (front ++ rest) = .ok (opened ++ opened') := by
  obtain ⟨opened, h⟩ := exists_decrypt key iv hfront
  obtain ⟨opened', h'⟩ := exists_decrypt key (carry iv front) hrest
  exact ⟨opened, opened', h, h', decrypt_append h h'⟩

/-- **The end of a ciphertext is decrypted from the block in front of it.** -/
theorem decrypt_drop {bytes padded : Bytes} (h : decrypt key iv bytes = .ok padded) {n : Nat}
    (hn : Block.size * (n + 1) < bytes.length) :
    ∃ before : Block, before.toBytes = (bytes.drop (Block.size * n)).take Block.size ∧
      decrypt key before (bytes.drop (Block.size * (n + 1))) =
        .ok (padded.drop (Block.size * (n + 1))) := by
  obtain ⟨_, hdvd⟩ := whole_of_decrypt h
  generalize hfrontEq : bytes.take (Block.size * (n + 1)) = front
  generalize hrestEq : bytes.drop (Block.size * (n + 1)) = rest
  have hbytes : front ++ rest = bytes := by
    rw [← hfrontEq, ← hrestEq, List.take_append_drop]
  have hlen : front.length = Block.size * (n + 1) := by
    rw [← hfrontEq, List.length_take, Nat.min_eq_left (Nat.le_of_lt hn)]
  have hlen' : rest.length = bytes.length - Block.size * (n + 1) := by
    rw [← hrestEq, List.length_drop]
  have hfront : WholeBlocks front := by
    refine ⟨List.ne_nil_of_length_pos ?_, hlen ▸ Nat.dvd_mul_right _ _⟩
    rw [hlen]
    exact Nat.mul_pos (by decide) (Nat.succ_pos n)
  have hrest : WholeBlocks rest := by
    refine ⟨List.ne_nil_of_length_pos (by omega), ?_⟩
    rw [hlen']
    exact Nat.dvd_sub hdvd (Nat.dvd_mul_right _ _)
  obtain ⟨opened, opened', hopened, hopened', hboth⟩ := exists_decrypt_append key iv hfront hrest
  rw [hbytes, h] at hboth
  obtain rfl := Except.ok.inj hboth
  refine ⟨carry iv front, ?_, ?_⟩
  · rw [toBytes_carry hfront, hlen, ← hfrontEq, List.drop_take, Nat.mul_succ, Nat.add_sub_cancel,
      Nat.add_sub_cancel_left]
  · rw [hopened', ← hlen, ← length_of_decrypt hopened, List.drop_left' rfl]

/-! ## Any number of cuts -/

/-- The ciphertext of a message that comes in pieces. -/
def encryptPieces (key : Aes.Key) : (previous : Block) → List Bytes → Bytes
  | _, [] => []
  | previous, piece :: pieces =>
    let written := encrypt key previous piece
    written ++ encryptPieces key (carry previous written) pieces

def decryptPieces (key : Aes.Key) : (previous : Block) → List Bytes → Except Error Bytes
  | _, [] => .ok []
  | previous, piece :: pieces => do
    let opened ← decrypt key previous piece
    let more ← decryptPieces key (carry previous piece) pieces
    return opened ++ more

theorem encryptPieces_eq_encrypt {pieces : List Bytes}
    (h : ∀ piece ∈ pieces, Block.size ∣ piece.length) (iv : Block) :
    encryptPieces key iv pieces = encrypt key iv pieces.flatten := by
  induction pieces generalizing iv with
  | nil => rfl
  | cons piece pieces ih =>
    rw [encryptPieces, List.flatten_cons, encrypt_append (h piece List.mem_cons_self),
      ih fun other hother => h other (List.mem_cons_of_mem piece hother)]

/-- In pieces, decryption writes what it writes in one call. That it also accepts is said of both
apart: no piece is refused, but no pieces at all are an empty message, which one call refuses. -/
theorem decryptPieces_of_whole {pieces : List Bytes} (h : ∀ piece ∈ pieces, WholeBlocks piece)
    (iv : Block) :
    decryptPieces key iv pieces =
      .ok (Block.join (decryptBlocks key iv (Block.split pieces.flatten))) := by
  induction pieces generalizing iv with
  | nil => rfl
  | cons piece pieces ih =>
    have hpiece := h piece List.mem_cons_self
    rw [decryptPieces, decrypt_of_whole hpiece.ne_nil hpiece.size_dvd,
      ih fun other hother => h other (List.mem_cons_of_mem piece hother), List.flatten_cons,
      Block.split_append hpiece.size_dvd, decryptBlocks_append, Block.join_append]
    rfl

theorem decryptPieces_eq_decrypt {pieces : List Bytes} (hne : pieces ≠ [])
    (h : ∀ piece ∈ pieces, WholeBlocks piece) (iv : Block) :
    decryptPieces key iv pieces = decrypt key iv pieces.flatten := by
  have hwhole := wholeBlocks_flatten hne h
  rw [decryptPieces_of_whole h, decrypt_of_whole hwhole.ne_nil hwhole.size_dvd]

/-- **Chaining can be cut at every block border.** Of two parts that fill whole blocks, the first
is encrypted as if it were alone, and the second under the last block that the first was turned
into; decryption takes the last block of the first part instead. So any pieces of whole blocks
give what one call gives, and a ciphertext can be decrypted from any block border on. -/
theorem chaining_splits_at_borders (key : Aes.Key) (iv : Block) {front rest : Bytes}
    (hfront : WholeBlocks front) (hrest : WholeBlocks rest) :
    (∃ last : Block,
      last.toBytes = (encrypt key iv front).drop ((encrypt key iv front).length - Block.size) ∧
      encrypt key iv (front ++ rest) = encrypt key iv front ++ encrypt key last rest) ∧
    (∃ (last : Block) (opened opened' : Bytes),
      last.toBytes = front.drop (front.length - Block.size) ∧
      decrypt key iv front = .ok opened ∧ decrypt key last rest = .ok opened' ∧
      decrypt key iv (front ++ rest) = .ok (opened ++ opened')) ∧
    (∀ pieces : List Bytes, pieces ≠ [] → (∀ piece ∈ pieces, WholeBlocks piece) →
      encryptPieces key iv pieces = encrypt key iv pieces.flatten ∧
      decryptPieces key iv pieces = decrypt key iv pieces.flatten) ∧
    (∀ bytes padded n, decrypt key iv bytes = .ok padded → Block.size * (n + 1) < bytes.length →
      ∃ before : Block, before.toBytes = (bytes.drop (Block.size * n)).take Block.size ∧
        decrypt key before (bytes.drop (Block.size * (n + 1))) =
          .ok (padded.drop (Block.size * (n + 1)))) := by
  refine ⟨?_, ?_, ?_, ?_⟩
  · exact ⟨_, toBytes_carry (wholeBlocks_encrypt hfront) iv, encrypt_append hfront.size_dvd rest⟩
  · obtain ⟨opened, opened', h, h', hboth⟩ := exists_decrypt_append key iv hfront hrest
    exact ⟨_, opened, opened', toBytes_carry hfront iv, h, h', hboth⟩
  · intro pieces hne hpieces
    exact ⟨encryptPieces_eq_encrypt (fun piece hpiece => (hpieces piece hpiece).size_dvd) iv,
      decryptPieces_eq_decrypt hne hpieces iv⟩
  · intro bytes padded n h hn
    exact decrypt_drop h hn

/-- Two blocks and a third, under a key of 16 bytes. -/
theorem chaining_splits_at_borders_replicate :
    WholeBlocks (List.replicate 32 1) ∧ WholeBlocks (List.replicate 16 2) ∧
      ∃ (key : Aes.Key) (last : Block), Aes.Key.ofHalf (List.replicate 16 7) = .ok key ∧
        last.toBytes = (encrypt key .zero (List.replicate 32 1)).drop 16 ∧
        encrypt key .zero (List.replicate 32 1 ++ List.replicate 16 2) =
          encrypt key .zero (List.replicate 32 1) ++ encrypt key last (List.replicate 16 2) := by
  have hfront : WholeBlocks (List.replicate 32 (1 : UInt8)) := ⟨by simp, ⟨2, by decide⟩⟩
  have hrest : WholeBlocks (List.replicate 16 (2 : UInt8)) := ⟨by simp, ⟨1, by decide⟩⟩
  obtain ⟨key, hkey, _⟩ := Aes.Key.exists_ofHalf
    (Or.inl (List.length_replicate : (List.replicate 16 (7 : UInt8)).length = 16))
  obtain ⟨⟨last, hlast, hboth⟩, _⟩ := chaining_splits_at_borders key .zero hfront hrest
  rw [length_encrypt hfront.size_dvd] at hlast
  exact ⟨hfront, hrest, key, last, hkey, hlast, hboth⟩

end Cbc

end EncryptThenMac
