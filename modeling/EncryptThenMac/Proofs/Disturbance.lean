import EncryptThenMac.Proofs.WholeBlocks

/-!
# What a changed block changes

Chaining is no protection against change: whoever lays a mask over a block of ciphertext lays it
over the block of plaintext behind it. This file says what else happens, and it is little. The
block that was changed is decrypted to something else, and every other block is decrypted to what
it was.

Decryption combines two neighbours. Write the vector in front of the ciphertext, as its block
before the first: then block `i` of the plaintext is made from the blocks `i - 1` and `i` of that
sequence and from no other, the one as it stands and the other decrypted. So a mask on one block
shows in two places. Where the block stands in front, the mask goes through unchanged; where it is
decrypted, nothing is left of the mask but that there was one, because the block function is
injective. A mask on the vector shows in one place only, since the vector is never decrypted.

The loop does not have the neighbours at hand: it carries the block that it has read. The laws are
therefore inductions along the loop with the carried block left open, and the two cases at the
front of the message are those two places.
-/

namespace EncryptThenMac

/-! ## Masks -/

/-- Two byte strings combined byte by byte, as far as both go. -/
def Bytes.xor (x y : Bytes) : Bytes :=
  List.zipWith (· ^^^ ·) x y

/-- A byte string with a mask laid over its block `i`, if it has one. -/
def Bytes.disturb (i : Nat) (mask : Block) (bytes : Bytes) : Bytes :=
  bytes.take (Block.size * i) ++ xor (block bytes i) mask.toBytes ++
    bytes.drop (Block.size * (i + 1))

namespace Block

theorem toBytes_xor (x y : Block) : (x ^^^ y).toBytes = Bytes.xor x.toBytes y.toBytes := rfl

theorem xor_right_injective {x y z : Block} (h : x ^^^ z = y ^^^ z) : x = y := by
  rw [← xor_xor_cancel x z, h, xor_xor_cancel]

/-- Only the mask of zeros changes nothing. -/
theorem eq_zero_of_xor_eq {x mask : Block} (h : x ^^^ mask = x) : mask = zero := by
  have hzero : zero ^^^ x = x := by
    simp only [zero, Word.zero, xor_def, Word.xor_def, UInt8.zero_xor]
  rw [xor_comm] at h
  exact xor_right_injective (h.trans hzero.symm)

variable {mask : Block} {i : Nat}

/-- On a sequence of blocks, a mask is laid over one of its elements. -/
theorem disturb_join (i : Nat) (mask : Block) (xs : List Block) :
    Bytes.disturb i mask (join xs) = join (xs.modify i (· ^^^ mask)) := by
  rw [Bytes.disturb, block_join, take_join, drop_join, List.modify_eq_take_drop, join_append,
    List.append_assoc, ← List.head?_drop, ← List.drop_drop]
  congr 1
  cases xs.drop i with
  | nil => rfl
  | cons x rest =>
    rw [List.modifyHead_cons, join_cons, toBytes_xor]
    rfl

theorem block_modify_self (xs : List Block) :
    Bytes.block (join (xs.modify i (· ^^^ mask))) i =
      Bytes.xor (Bytes.block (join xs) i) mask.toBytes := by
  rw [block_join, block_join, List.getElem?_modify_eq]
  cases xs[i]? with
  | none => rfl
  | some x => exact toBytes_xor x mask

end Block

namespace Cbc

variable {key : Aes.Key}

/-! ## Along the loop -/

/-- The vector is combined with the first block and used for nothing else. -/
theorem decryptBlocks_xor (mask previous : Block) (ys : List Block) :
    decryptBlocks key (previous ^^^ mask) ys =
      (decryptBlocks key previous ys).modify 0 (· ^^^ mask) := by
  cases ys with
  | nil => rfl
  | cons y ys => rw [decryptBlocks, decryptBlocks, List.modify_zero_cons, Block.xor_assoc]

/-- Away from the changed block, what changes is the block behind it. -/
theorem getElem?_decryptBlocks_modify (mask : Block) : ∀ (previous : Block) (ys : List Block)
    {i j : Nat}, i ≠ j →
    (decryptBlocks key previous (ys.modify j (· ^^^ mask)))[i]? =
      ((decryptBlocks key previous ys).modify (j + 1) (· ^^^ mask))[i]?
  | _, [], _, _, _ => by rw [List.modify_nil, decryptBlocks, List.modify_nil]
  | _, _ :: _, 0, 0, h => absurd rfl h
  | _, _ :: _, 0, _ + 1, _ => rfl
  -- The changed block has been read and is carried into what follows.
  | _, y :: ys, i + 1, 0, _ => by
    rw [List.modify_zero_cons, decryptBlocks, decryptBlocks, List.modify_succ_cons,
      decryptBlocks_xor, List.getElem?_cons_succ, List.getElem?_cons_succ]
  | _, y :: ys, i + 1, j + 1, h => by
    rw [List.modify_succ_cons, decryptBlocks, decryptBlocks, List.modify_succ_cons,
      List.getElem?_cons_succ, List.getElem?_cons_succ]
    exact getElem?_decryptBlocks_modify mask y ys (fun hij => h (congrArg _ hij))

theorem getElem?_decryptBlocks_modify_self_ne {mask : Block} (hmask : mask ≠ .zero) :
    ∀ (previous : Block) (ys : List Block) {j : Nat}, j < ys.length →
    (decryptBlocks key previous (ys.modify j (· ^^^ mask)))[j]? ≠
      (decryptBlocks key previous ys)[j]?
  | previous, y :: ys, 0, _ => by
    intro h
    have hblock : key.decryptBlock (y ^^^ mask) = key.decryptBlock y :=
      Block.xor_right_injective (Option.some.inj h)
    exact hmask (Block.eq_zero_of_xor_eq (key.decryptBlock_injective hblock))
  | _, y :: ys, j + 1, h => by
    rw [List.modify_succ_cons, decryptBlocks, decryptBlocks, List.getElem?_cons_succ,
      List.getElem?_cons_succ]
    exact getElem?_decryptBlocks_modify_self_ne hmask y ys (Nat.lt_of_succ_lt_succ h)

/-! ## On byte strings -/

/-- **A disturbance stays local.** Under a mask that is not all zeros, laid over one block of a
ciphertext, that block is decrypted to another one, the block behind it, if there is one, gets the
mask, and no other block and no length is affected. A mask on the vector lies over the first block
and over nothing else. -/
theorem disturbance_stays_local (key : Aes.Key) (iv : Block) {mask : Block} {ciphertext : Bytes}
    {j : Nat} (hmask : mask ≠ .zero) (hwhole : WholeBlocks ciphertext)
    (hj : Block.size * j < ciphertext.length) :
    ∃ opened opened', decrypt key iv ciphertext = .ok opened ∧
      decrypt key iv (Bytes.disturb j mask ciphertext) = .ok opened' ∧
      opened'.length = opened.length ∧
      Bytes.block opened' j ≠ Bytes.block opened j ∧
      Bytes.block opened' (j + 1) = Bytes.xor (Bytes.block opened (j + 1)) mask.toBytes ∧
      (∀ i, i ≠ j → i ≠ j + 1 → Bytes.block opened' i = Bytes.block opened i) ∧
      decrypt key (iv ^^^ mask) ciphertext = .ok (Bytes.disturb 0 mask opened) := by
  obtain ⟨ys, hys, rfl⟩ := hwhole.exists_join
  rw [Block.length_join] at hj
  have hlt : j < ys.length := Nat.lt_of_mul_lt_mul_left hj
  have hys' : ys.modify j (· ^^^ mask) ≠ [] := by
    rw [← List.length_pos_iff, List.length_modify]
    exact List.length_pos_iff.mpr hys
  refine ⟨_, _, decrypt_join hys, Block.disturb_join j mask ys ▸ decrypt_join hys', ?_, ?_, ?_, ?_,
    ?_⟩
  · rw [Block.length_join, Block.length_join, length_decryptBlocks, length_decryptBlocks,
      List.length_modify]
  · rw [Ne, Block.block_join_eq_iff]
    exact getElem?_decryptBlocks_modify_self_ne hmask iv ys hlt
  · rw [← Block.block_modify_self, Block.block_join_eq_iff]
    exact getElem?_decryptBlocks_modify mask iv ys (Nat.succ_ne_self j)
  · intro i hij hij'
    rw [Block.block_join_eq_iff, getElem?_decryptBlocks_modify mask iv ys hij,
      List.getElem?_modify_ne _ _ hij'.symm]
  · rw [decrypt_join hys, decryptBlocks_xor, Block.disturb_join]

/-- The second of three blocks, with one bit changed. -/
theorem disturbance_stays_local_replicate :
    ∃ (key : Aes.Key) (mask : Block) (opened opened' : Bytes),
      Aes.Key.ofHalf (List.replicate 24 7) = .ok key ∧ mask ≠ .zero ∧
      WholeBlocks (List.replicate 48 5) ∧ 16 * 1 < (List.replicate 48 (5 : UInt8)).length ∧
      decrypt key .zero (List.replicate 48 5) = .ok opened ∧
      decrypt key .zero (List.replicate 20 5 ++ [4] ++ List.replicate 27 5) = .ok opened' ∧
      Bytes.block opened' 0 = Bytes.block opened 0 ∧
      Bytes.block opened' 1 ≠ Bytes.block opened 1 ∧
      Bytes.block opened' 2 = Bytes.xor (Bytes.block opened 2) mask.toBytes := by
  have hwhole : WholeBlocks (List.replicate 48 (5 : UInt8)) := ⟨by simp, ⟨3, by decide⟩⟩
  have hmask : (⟨.zero, ⟨1, 0, 0, 0⟩, .zero, .zero⟩ : Block) ≠ .zero := by decide
  have hplace : 16 * 1 < (List.replicate 48 (5 : UInt8)).length := by decide
  obtain ⟨key, hkey, _⟩ := Aes.Key.exists_ofHalf
    (Or.inr (Or.inl (List.length_replicate : (List.replicate 24 (7 : UInt8)).length = 24)))
  obtain ⟨opened, opened', h, h', _, hself, hnext, hothers, _⟩ :=
    disturbance_stays_local key .zero hmask hwhole hplace
  exact ⟨key, _, opened, opened', hkey, hmask, hwhole, hplace, h, h',
    hothers 0 (by decide) (by decide), hself, hnext⟩

end Cbc

end EncryptThenMac
