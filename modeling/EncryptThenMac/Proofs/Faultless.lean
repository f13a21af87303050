import EncryptThenMac.Proofs.Lengths
import EncryptThenMac.Proofs.Machine

/-!
# Sealing and opening on a machine

Sealing and opening are written here once more, as programs of a machine. Where a function takes a
part of a list, its program reckons in words where to cut and cuts there; where a function looks at
the last byte, its program has an index; where a function goes through blocks, its program has a
loop that changes chunks of a slice in place and carries an array from one to the next. Every step
that can fault on a machine is a step of the program. Each program is then shown to be `pure` of its
function, which says two things at once, that no step of it faults and that it gives the same. The
computation of a tag is the one with a product that may wrap, so there the function comes behind it
(`computeTag_eq`).

What makes a step safe is often not where the step is. There is room for the tag because of the
first check, and the last block is one because of the check for whole blocks. How much `unpad` cuts
off at the end is a number that has come with the envelope, and the only thing that bounds it is the
verdict of the walk (`le_of_isPadded`).

Byte strings have at most `2 ^ 63 - 1` bytes, which is what a slice can have. That leaves room above
for the lengths of what is made from them.
-/

namespace EncryptThenMac.Machine

/-- The size of a block, as a word. -/
def blockSize : UInt64 :=
  .ofNat Block.size

/-! ## Padding -/

/-- Padding, with room made before the bytes are written. -/
def pad (plaintext : Bytes) : Machine Bytes := do
  let len ← length plaintext
  let k ← sub blockSize (← rem len blockSize)
  -- The same sum is reckoned for the room and for the length.
  let _capacity ← add len k
  let size ← add len k
  resize plaintext size (← toByte k)

/-- The walk over a last block, from place `i` on. The places are counted from the end. -/
def walk (k : UInt8) : (i : UInt64) → (valid : Bool) → Bytes → Machine Bool
  | _, valid, [] => return valid
  | i, valid, byte :: rest => do
    let place ← toByte i
    let next ← add i (.ofNat 1)
    walk k next (valid && (!decide (place < k) || byte == k)) rest

/-- Unpadding. How much is cut off is said by a byte that anybody may have written. -/
def unpad (padded : Bytes) : Machine (Except Error Bytes) := do
  let len ← length padded
  let rest ← rem len blockSize
  if len = .ofNat 0 ∨ rest ≠ .ofNat 0 then return .error .decryptionFailed
  else
    let lastBlock ← sliceFrom padded (← sub len blockSize)
    let k ← index lastBlock (← sub blockSize (.ofNat 1))
    let limit ← addByte (← toByte blockSize) (.ofNat 1)
    let valid ← walk k (.ofNat 0) (decide (0 < k) && decide (k < limit)) lastBlock.reverse
    if valid then
      -- No check of its own keeps this from going below zero.
      let kept ← sub len (ofByte k)
      return .ok (truncate padded kept)
    else return .error .decryptionFailed

/-- There is room for a whole block more, and what is asked for is at most that. -/
theorem pad_eq {plaintext : Bytes} (h : plaintext.length + Block.size < 2 ^ 64) :
    pad plaintext = pure (Padding.pad plaintext) := by
  have hpos := Padding.amount_pos plaintext.length
  have hle := Padding.amount_le plaintext.length
  have hsize : Block.size = 16 := rfl
  have hrest : plaintext.length % Block.size ≤ Block.size := by rw [hsize]; omega
  rw [pad, blockSize, length_eq (by omega), pure_bind,
    rem_word (by omega) (by decide) (by decide), pure_bind, sub_word (by decide) hrest, pure_bind,
    ← Padding.amount, add_word (by omega), pure_bind, pure_bind,
    toByte_word (by omega), pure_bind, resize_word (by omega) (by omega), Nat.add_sub_cancel_left]
  rfl

theorem walk_eq (k : UInt8) : ∀ (bytes : Bytes) (i : Nat) (valid : Bool), i + bytes.length ≤ 256 →
    walk k (.ofNat i) valid bytes =
      pure ((bytes.zipIdx i).foldl
        (fun valid (byte, i) => valid && (!decide (UInt8.ofNat i < k) || byte == k)) valid)
  | [], _, _, _ => rfl
  | byte :: rest, i, valid, h => by
    rw [List.length_cons] at h
    rw [walk, toByte_word (by omega), pure_bind, add_word (by omega), pure_bind,
      walk_eq k rest (i + 1) _ (by omega)]
    rfl

/-- The check for whole blocks, in words and in numbers. -/
theorem not_whole_word_iff {n : Nat} (h : n < 2 ^ 64) :
    (UInt64.ofNat n = .ofNat 0 ∨ UInt64.ofNat (n % Block.size) ≠ .ofNat 0) ↔
      (n = 0 ∨ n % Block.size ≠ 0) := by
  have hrest : n % Block.size < 2 ^ 64 := Nat.lt_of_le_of_lt (Nat.mod_le n _) h
  rw [word_eq_iff h (by decide), ne_eq, word_eq_iff hrest (by decide)]

theorem index_last {lastBlock : Bytes} (h : lastBlock.length = Block.size) :
    index lastBlock (.ofNat (Block.size - 1)) = pure (lastBlock.getLastD 0) := by
  have hlast : Block.size - 1 < lastBlock.length := by rw [h]; decide
  rw [index_word (by decide) hlast, List.getLastD_eq_getLast?, List.getLast?_eq_getElem?, h,
    List.getElem?_eq_getElem hlast, Option.getD_some]

/-- What the walk lets pass is not more than a block. This is all that keeps the length from going
below zero. -/
theorem le_of_isPadded {lastBlock : Bytes} {k : UInt8} (hlen : lastBlock.length = Block.size)
    (h : Padding.isPadded lastBlock k = true) : k.toNat ≤ Block.size :=
  ((Padding.isPadded_iff hlen).mp h).1.2

/-- No byte string makes unpadding fault, whatever its last byte says. -/
theorem unpad_eq {padded : Bytes} (h : padded.length < 2 ^ 64) :
    unpad padded = pure (Padding.unpad padded) := by
  rw [unpad, blockSize, length_eq h, pure_bind, rem_word h (by decide) (by decide), pure_bind,
    Padding.unpad]
  by_cases hbad : padded.length = 0 ∨ padded.length % Block.size ≠ 0
  · rw [if_pos ((not_whole_word_iff h).mpr hbad), if_pos hbad]
  · rw [if_neg (mt (not_whole_word_iff h).mp hbad), if_neg hbad]
    have hroom : Block.size ≤ padded.length := by
      simp only [Block.size] at hbad ⊢
      omega
    have hlast : (padded.drop (padded.length - Block.size)).length = Block.size := by
      rw [List.length_drop]
      omega
    rw [sub_word h hroom, pure_bind, sliceFrom_word (by omega) (by omega), pure_bind,
      sub_word (by decide) (by decide), pure_bind, index_last hlast, pure_bind]
    generalize padded.drop (padded.length - Block.size) = lastBlock at hlast
    have hreverse : 0 + lastBlock.reverse.length ≤ 256 := by
      rw [List.length_reverse, hlast]
      decide
    rw [toByte_word (by decide), pure_bind, addByte_ofNat (by decide), pure_bind,
      walk_eq _ _ _ _ hreverse, pure_bind, ← Padding.isPadded]
    dsimp only
    by_cases hpadded : Padding.isPadded lastBlock (lastBlock.getLastD 0) = true
    · have hk := le_of_isPadded hlast hpadded
      rw [if_pos hpadded, if_pos hpadded, ofByte, sub_word h (by omega), pure_bind,
        truncate_word (by omega)]
    · rw [if_neg hpadded, if_neg hpadded]

/-! ## Chaining -/

/-- The loop over chunks that are changed in place, with what is carried from one to the next. -/
def eachChunk (body : Block → Bytes → Machine (Bytes × Block)) :
    (carried : Block) → List Bytes → Machine (List Bytes)
  | _, [] => return []
  | carried, chunk :: rest => do
    let (changed, carried) ← body carried chunk
    let more ← eachChunk body carried rest
    return changed :: more

/-- The same over the whole blocks of a byte string. What is left behind them is not touched. -/
def inBlocks (body : Block → Bytes → Machine (Bytes × Block)) (carried : Block) (bytes : Bytes) :
    Machine Bytes := do
  let chunks ← eachChunk body carried (Bytes.blocks Block.size bytes)
  return chunks.flatten ++ Bytes.remainder Block.size bytes

/-- Combines the bytes of a slice with those of a block, as far as both go. -/
def xorInPlace (slice : Bytes) (x : Block) : Bytes :=
  List.zipWith (· ^^^ ·) slice x.toBytes ++ slice.drop Block.size

section

variable (key : Aes.Key)

/-- One turn of encryption. What is carried on is what the chunk has become. -/
def encryptChunk (previous : Block) (chunk : Bytes) : Machine (Bytes × Block) := do
  let input ← block (xorInPlace chunk previous)
  let chunk := (key.encryptBlock input).toBytes
  let previous ← block chunk
  return (chunk, previous)

/-- One turn of decryption. What is carried on is what the chunk has been. -/
def decryptChunk (previous : Block) (chunk : Bytes) : Machine (Bytes × Block) := do
  let current ← block chunk
  let input ← block chunk
  return (xorInPlace (key.decryptBlock input).toBytes previous, current)

/-- Encryption in place, of whole blocks. -/
def cbcEncrypt (iv : Block) (padded : Bytes) : Machine Bytes := do
  let len ← length padded
  let rest ← rem len blockSize
  -- Asserted and not checked: who calls this has padded.
  assert (len ≠ .ofNat 0 ∧ rest = .ofNat 0)
  inBlocks (encryptChunk key) iv padded

/-- Decryption in place. What is not whole blocks is refused, as it can come from anywhere. -/
def cbcDecrypt (iv : Block) (ciphertext : Bytes) : Machine (Except Error Bytes) := do
  let len ← length ciphertext
  let rest ← rem len blockSize
  if len = .ofNat 0 ∨ rest ≠ .ofNat 0 then return .error (.malformedCiphertext .notWholeBlocks)
  else return .ok (← inBlocks (decryptChunk key) iv ciphertext)

end

theorem pieces_join : ∀ xs : List Block,
    Bytes.pieces Block.size xs.length (Block.join xs) = xs.map Block.toBytes
  | [] => rfl
  | x :: xs => by
    rw [List.length_cons, Bytes.pieces, Block.join_cons, List.take_left' (Block.length_toBytes x),
      List.drop_left' (Block.length_toBytes x), pieces_join xs, List.map_cons]

theorem blocks_join (xs : List Block) :
    Bytes.blocks Block.size (Block.join xs) = xs.map Block.toBytes := by
  rw [Bytes.blocks, Block.length_join, Nat.mul_div_cancel_left _ (by decide), pieces_join]

theorem remainder_join (xs : List Block) : Bytes.remainder Block.size (Block.join xs) = [] := by
  rw [Bytes.remainder, Block.length_join, Nat.mul_div_cancel_left _ (by decide),
    ← Block.length_join, List.drop_length]

theorem xorInPlace_toBytes (x y : Block) : xorInPlace x.toBytes y = (x ^^^ y).toBytes := rfl

section

variable {body : Block → Bytes → Machine (Bytes × Block)} {carried carried' : Block}

theorem eachChunk_cons {chunk changed : Bytes} {rest more : List Bytes}
    (hchunk : body carried chunk = pure (changed, carried'))
    (hrest : eachChunk body carried' rest = pure more) :
    eachChunk body carried (chunk :: rest) = pure (changed :: more) := by
  rw [eachChunk, hchunk, pure_bind]
  dsimp only
  rw [hrest, pure_bind]

/-- A loop that makes blocks of blocks, on a byte string. -/
theorem inBlocks_join {xs ys : List Block}
    (h : eachChunk body carried (xs.map Block.toBytes) = pure (ys.map Block.toBytes)) :
    inBlocks body carried (Block.join xs) = pure (Block.join ys) := by
  rw [inBlocks, blocks_join, h, pure_bind, remainder_join, List.append_nil, Block.join,
    List.flatMap_def]

theorem inBlocks_of_whole {bytes : Bytes} {ys : List Block} (hdvd : Block.size ∣ bytes.length)
    (h : eachChunk body carried ((Block.split bytes).map Block.toBytes) =
      pure (ys.map Block.toBytes)) :
    inBlocks body carried bytes = pure (Block.join ys) := by
  have hloop := inBlocks_join h
  rw [Block.join_split hdvd] at hloop
  exact hloop

end

variable {key : Aes.Key}

theorem encryptChunk_toBytes (previous x : Block) :
    encryptChunk key previous x.toBytes =
      pure ((key.encryptBlock (x ^^^ previous)).toBytes, key.encryptBlock (x ^^^ previous)) := by
  rw [encryptChunk, xorInPlace_toBytes, block_toBytes, pure_bind]
  dsimp only
  rw [block_toBytes, pure_bind]

theorem decryptChunk_toBytes (previous y : Block) :
    decryptChunk key previous y.toBytes = pure ((key.decryptBlock y ^^^ previous).toBytes, y) := by
  rw [decryptChunk, block_toBytes, pure_bind, pure_bind, xorInPlace_toBytes]

theorem eachChunk_encryptChunk : ∀ (previous : Block) (xs : List Block),
    eachChunk (encryptChunk key) previous (xs.map Block.toBytes) =
      pure ((Cbc.encryptBlocks key previous xs).map Block.toBytes)
  | _, [] => rfl
  | previous, x :: xs =>
    eachChunk_cons (encryptChunk_toBytes previous x) (eachChunk_encryptChunk _ xs)

theorem eachChunk_decryptChunk : ∀ (previous : Block) (ys : List Block),
    eachChunk (decryptChunk key) previous (ys.map Block.toBytes) =
      pure ((Cbc.decryptBlocks key previous ys).map Block.toBytes)
  | _, [] => rfl
  | previous, y :: ys =>
    eachChunk_cons (decryptChunk_toBytes previous y) (eachChunk_decryptChunk y ys)

/-- The assertion holds for whole blocks, one or more, and every chunk is then a block. -/
theorem cbcEncrypt_eq {iv : Block} {padded : Bytes} (h : padded.length < 2 ^ 64)
    (hne : padded ≠ []) (hdvd : Block.size ∣ padded.length) :
    cbcEncrypt key iv padded = pure (Cbc.encrypt key iv padded) := by
  have hpos := List.length_pos_iff.mpr hne
  have hassert : UInt64.ofNat padded.length ≠ .ofNat 0 ∧
      UInt64.ofNat (padded.length % Block.size) = .ofNat 0 := by
    rw [ne_eq, word_eq_iff h (by decide), Nat.mod_eq_zero_of_dvd hdvd]
    exact ⟨Nat.ne_of_gt hpos, rfl⟩
  rw [cbcEncrypt, length_eq h, pure_bind, blockSize, rem_word h (by decide) (by decide), pure_bind,
    assert_of hassert, pure_bind]
  exact inBlocks_of_whole hdvd (eachChunk_encryptChunk iv (Block.split padded))

theorem cbcDecrypt_eq {iv : Block} {ciphertext : Bytes} (h : ciphertext.length < 2 ^ 64) :
    cbcDecrypt key iv ciphertext = pure (Cbc.decrypt key iv ciphertext) := by
  rw [cbcDecrypt, length_eq h, pure_bind, blockSize, rem_word h (by decide) (by decide), pure_bind,
    Cbc.decrypt]
  by_cases hbad : ciphertext.length = 0 ∨ ciphertext.length % Block.size ≠ 0
  · rw [if_pos ((not_whole_word_iff h).mpr hbad), if_pos hbad]
  · rw [if_neg (mt (not_whole_word_iff h).mp hbad), if_neg hbad]
    have hdvd : Block.size ∣ ciphertext.length :=
      Nat.dvd_of_mod_eq_zero (Decidable.byContradiction fun hrest => hbad (Or.inr hrest))
    rw [inBlocks_of_whole hdvd (eachChunk_decryptChunk iv (Block.split ciphertext)), pure_bind]

/-! ## Tags -/

/-- The tag, with the one product that is let wrap. -/
def computeTag (variant : Variant) (macKey aad iv ciphertext : Bytes) :
    Machine (Except Error Bytes) := do
  match Hmac.start? variant.hash macKey with
  -- No key is refused, so that this product is never taken.
  | none => return .error (.invalidKeySize (← mul (← length macKey) (.ofNat 2)).toNat)
  | some code =>
    let aadBits ← wrappingMul (← length aad) (.ofNat 8)
    let code := code.update aad |>.update iv |>.update ciphertext
      |>.update (Bytes.bigEndian 8 aadBits.toNat)
    return .ok (truncate code.finish (.ofNat variant.tagSize))

/-- The tag is computed and compared with a candidate. -/
def verifyTag (variant : Variant) (macKey aad iv ciphertext tag : Bytes) :
    Machine (Except Error Bool) := do
  match ← computeTag variant macKey aad iv ciphertext with
  | .error error => return .error error
  | .ok expected => return .ok (expected == tag)

/-! ## Sealing and opening -/

/-- The cipher key of a half. A fault names the size of the whole key, which is twice the half. -/
def ofHalf (half : Bytes) : Machine (Except Error Aes.Key) := do
  let len ← length half
  if len = .ofNat 16 ∨ len = .ofNat 24 ∨ len = .ofNat 32 then
    match Aes.Key.ofBytes? half with
    | some key => return .ok key
    | none => return .error (.invalidKeySize (← mul len (.ofNat 2)).toNat)
  else return .error (.invalidKeySize (← mul len (.ofNat 2)).toNat)

/-- Sealing. How long the envelope is going to be is reckoned before it is put together. -/
def sealBytes (sealer : Sealer) (iv : Block) (plaintext aad : Bytes) :
    Machine (Except Error Bytes) := do
  let ciphertext ← cbcEncrypt sealer.cipher iv (← pad plaintext)
  match ← computeTag sealer.variant sealer.macKey aad iv.toBytes ciphertext with
  | .error error => return .error error
  | .ok tag =>
    let front ← add blockSize (← length ciphertext)
    let _capacity ← add front (← length tag)
    return .ok (iv.toBytes ++ ciphertext ++ tag)

/-- What is opened once the tag is right. Which of the two steps has failed is not said. -/
def openBody (key : Aes.Key) (iv : Block) (body : Bytes) : Machine (Option Bytes) := do
  match ← cbcDecrypt key iv body with
  | .error _ => return none
  | .ok padded => return (← unpad padded).toOption

/-- Opening, behind the checks of lengths. -/
def openParts (sealer : Sealer) (iv body tag aad : Bytes) : Machine (Traced Bytes) := do
  let ivBlock ← block iv
  match ← verifyTag sealer.variant sealer.macKey aad iv body tag with
  | .error error => return .quiet (.error error)
  | .ok valid =>
    match ← if valid then openBody sealer.cipher ivBlock body else pure none with
    | none => return .refuse .decryptionFailed .decryptionFailed
    | some plaintext => return .done plaintext

/-- Opening. Lengths are checked before anything is computed of the bytes. -/
def openBytes (sealer : Sealer) (bytes aad : Bytes) : Machine (Traced Bytes) := do
  let tagSize : UInt64 := .ofNat sealer.tagSize
  let len ← length bytes
  if len < (← add blockSize tagSize) then
    return .refuse (.rejectedShort len.toNat) (.malformedCiphertext .tooShort)
  else
    -- There is room for both cuts because of the check above.
    let (iv, rest) ← splitAt bytes blockSize
    let (body, tag) ← splitAt rest (← sub (← length rest) tagSize)
    let bodyLen ← length body
    let bodyRest ← rem bodyLen blockSize
    if bodyLen = .ofNat 0 ∨ bodyRest ≠ .ofNat 0 then
      return .refuse (.rejectedUnaligned len.toNat) (.malformedCiphertext .notWholeBlocks)
    else openParts sealer iv body tag aad

section

variable {variant : Variant} {macKey aad iv ciphertext tag : Bytes}

theorem bigEndian_wrapped (h : aad.length < 2 ^ 64) :
    Bytes.bigEndian 8 (UInt64.ofNat aad.length * .ofNat 8).toNat = Tag.lengthField aad := by
  rw [UInt64.toNat_mul, toNat_word h, toNat_word (by decide), Nat.mul_comm, Tag.lengthField]

/-- Before the product nothing can fault, and behind it there is nothing but the function. -/
theorem computeTag_eq (h : aad.length < 2 ^ 64) :
    computeTag variant macKey aad iv ciphertext = (do
      let _ ← wrappingMul (.ofNat aad.length) (.ofNat 8)
      return Tag.compute variant macKey aad iv ciphertext) := by
  have htag : variant.tagSize < 2 ^ 64 := by
    have := variant.tagSize_bounds.2
    omega
  rw [computeTag, Hmac.start?]
  dsimp only
  rw [length_eq h, pure_bind, wrappingMul_bind, bigEndian_wrapped h, truncate_word htag]
  rfl

theorem verifyTag_eq (h : aad.length < 2 ^ 64) :
    verifyTag variant macKey aad iv ciphertext tag = (do
      let _ ← wrappingMul (.ofNat aad.length) (.ofNat 8)
      return Tag.verify variant macKey aad iv ciphertext tag) := by
  rw [verifyTag, computeTag_eq h, bind_assoc]
  simp only [pure_bind, Tag.verify, Tag.compute_eq]
  rfl

end

theorem ofBytes?_of_other_size {half : Bytes}
    (h : ¬ (half.length = 16 ∨ half.length = 24 ∨ half.length = 32)) :
    Aes.Key.ofBytes? half = none := by
  have hsize : Aes.KeySize.ofBytes? half.length = none := by
    unfold Aes.KeySize.ofBytes?
    split <;> first | omega | rfl
  rw [Aes.Key.ofBytes?, hsize, Option.map_none]

/-- What is not one of the sizes is refused, and its double fits in a word because a slice is short
enough. -/
theorem ofHalf_eq {half : Bytes} (h : half.length * 2 < 2 ^ 64) :
    ofHalf half = pure (Aes.Key.ofHalf half) := by
  have hlen : half.length < 2 ^ 64 := by omega
  have hwords : (UInt64.ofNat half.length = .ofNat 16 ∨ UInt64.ofNat half.length = .ofNat 24 ∨
      UInt64.ofNat half.length = .ofNat 32) ↔
        (half.length = 16 ∨ half.length = 24 ∨ half.length = 32) := by
    rw [word_eq_iff hlen (by decide), word_eq_iff hlen (by decide), word_eq_iff hlen (by decide)]
  rw [ofHalf, length_eq hlen, pure_bind, mul_word hlen (by decide) h, pure_bind, toNat_word h,
    Aes.Key.ofHalf]
  by_cases hsize : half.length = 16 ∨ half.length = 24 ∨ half.length = 32
  · rw [if_pos (hwords.mpr hsize)]
    cases Aes.Key.ofBytes? half with
    | some key => rfl
    | none => rfl
  · rw [if_neg (mt hwords.mp hsize), ofBytes?_of_other_size hsize]

variable {sealer : Sealer}

/-- A plaintext of half the range of a word leaves room for the padding, the vector and the tag. -/
theorem sealBytes_eq {iv : Block} {plaintext aad : Bytes} (hplaintext : plaintext.length < 2 ^ 63)
    (haad : aad.length < 2 ^ 64) :
    sealBytes sealer iv plaintext aad = (do
      let _ ← wrappingMul (.ofNat aad.length) (.ofNat 8)
      return sealer.sealBytes iv plaintext aad) := by
  have hsize : Block.size = 16 := rfl
  have htag : sealer.tagSize ≤ 32 := sealer.variant.tagSize_bounds.2
  have hamount := Padding.amount_le plaintext.length
  have hpadded : (Padding.pad plaintext).length < 2 ^ 63 + 16 := by
    rw [Padding.length_pad]
    omega
  have hbody : (Cbc.encrypt sealer.cipher iv (Padding.pad plaintext)).length < 2 ^ 63 + 16 := by
    rw [Cbc.length_encrypt (Padding.size_dvd_length_pad plaintext)]
    exact hpadded
  rw [sealBytes, pad_eq (by omega), pure_bind,
    cbcEncrypt_eq (by omega) (Padding.pad_ne_nil plaintext) (Padding.size_dvd_length_pad plaintext),
    pure_bind, computeTag_eq haad, bind_assoc, Sealer.compute_eq_rightTag, Sealer.sealBytes_eq]
  simp only [pure_bind]
  generalize Cbc.encrypt sealer.cipher iv (Padding.pad plaintext) = body at hbody
  have hright := sealer.length_rightTag aad iv body
  rw [length_eq (by omega), pure_bind, blockSize, add_word (by omega), pure_bind,
    length_eq (by omega), pure_bind, add_word (by omega), pure_bind]

theorem openBody_eq {key : Aes.Key} {iv : Block} {body : Bytes} (h : body.length < 2 ^ 64) :
    openBody key iv body = pure ((Cbc.decrypt key iv body).bind Padding.unpad).toOption := by
  rw [openBody, cbcDecrypt_eq h, pure_bind]
  cases hpadded : Cbc.decrypt key iv body with
  | error error => rfl
  | ok padded =>
    dsimp only
    rw [unpad_eq (by rw [Cbc.length_of_decrypt hpadded]; exact h), pure_bind]
    rfl

section

variable {aad body tag : Bytes} {iv : Block}

theorem openParts_eq (hbody : body.length < 2 ^ 64) (haad : aad.length < 2 ^ 64)
    (htag : tag.length = sealer.tagSize) (hne : body ≠ []) (hdvd : Block.size ∣ body.length) :
    openParts sealer iv.toBytes body tag aad = (do
      let _ ← wrappingMul (.ofNat aad.length) (.ofNat 8)
      return sealer.openBytes (iv.toBytes ++ body ++ tag) aad) := by
  have hopen := sealer.openParts_eq ⟨iv, body, tag⟩ aad
  rw [Sealer.openBytes_of_parts htag hne hdvd hopen, openParts, block_toBytes, pure_bind,
    verifyTag_eq haad, bind_assoc, Tag.verify_eq, ← Sealer.rightTag]
  simp only [pure_bind]
  by_cases hright : sealer.rightTag aad iv body = tag
  · rw [if_pos (beq_iff_eq.mpr hright), if_pos hright, openBody_eq hbody, pure_bind]
    cases ((Cbc.decrypt sealer.cipher iv body).bind Padding.unpad).toOption with
    | none => rfl
    | some plaintext => rfl
  · rw [if_neg (mt beq_iff_eq.mp hright), if_neg hright]
    rfl

theorem openBytes_of_short {bytes : Bytes} (h : bytes.length < Block.size + sealer.tagSize) :
    openBytes sealer bytes aad = pure (sealer.openBytes bytes aad) := by
  have htag : sealer.tagSize ≤ 32 := sealer.variant.tagSize_bounds.2
  have hsize : Block.size = 16 := rfl
  rw [openBytes]
  dsimp only
  rw [length_eq (by omega), pure_bind, blockSize, add_word (by omega), pure_bind,
    if_pos ((word_lt_iff (by omega) (by omega)).mpr h), toNat_word (by omega),
    Sealer.openBytes_of_verdict (.short h)]
  rfl

/-- Where there is room for a vector and a tag, they are cut off and the body is looked at. -/
theorem openBytes_of_room (htag : tag.length = sealer.tagSize)
    (h : (iv.toBytes ++ body ++ tag).length < 2 ^ 64) :
    openBytes sealer (iv.toBytes ++ body ++ tag) aad =
      if body.length = 0 ∨ body.length % Block.size ≠ 0 then
        pure (.refuse (.rejectedUnaligned (iv.toBytes ++ body ++ tag).length)
          (.malformedCiphertext .notWholeBlocks))
      else openParts sealer iv.toBytes body tag aad := by
  have hsize : Block.size = 16 := rfl
  have hsmall : sealer.tagSize ≤ 32 := sealer.variant.tagSize_bounds.2
  have hrest : (body ++ tag).length = body.length + sealer.tagSize := by
    rw [List.length_append, htag]
  have hlength : (iv.toBytes ++ (body ++ tag)).length = Block.size + (body ++ tag).length := by
    rw [List.length_append, Block.length_toBytes]
  rw [List.append_assoc] at h ⊢
  rw [openBytes]
  dsimp only
  rw [length_eq h, pure_bind, blockSize, add_word (by omega), pure_bind,
    if_neg (mt (word_lt_iff h (by omega)).mp (by omega)),
    splitAt_append (by decide) (Block.length_toBytes iv), pure_bind]
  dsimp only
  rw [length_eq (by omega), pure_bind, hrest, sub_word (by omega) (by omega), pure_bind,
    Nat.add_sub_cancel, splitAt_append (by omega) rfl, pure_bind]
  dsimp only
  rw [length_eq (by omega), pure_bind, rem_word (by omega) (by decide) (by decide), pure_bind]
  by_cases hbad : body.length = 0 ∨ body.length % Block.size ≠ 0
  · rw [if_pos ((not_whole_word_iff (by omega)).mpr hbad), if_pos hbad, toNat_word h]
  · rw [if_neg (mt (not_whole_word_iff (by omega)).mp hbad), if_neg hbad]

/-- No tag is computed of what cannot be an envelope. -/
theorem openBytes_of_malformed {bytes : Bytes} (h : bytes.length < 2 ^ 64)
    (hmalformed : ¬ ∃ n, sealer.sealedLength n = bytes.length) :
    openBytes sealer bytes aad = pure (sealer.openBytes bytes aad) := by
  rcases Nat.lt_or_ge bytes.length (Block.size + sealer.tagSize) with hshort | hroom
  · exact openBytes_of_short hshort
  · obtain ⟨⟨iv, body, tag⟩, rfl, htag⟩ := Envelope.exists_parts hroom
    have hbad : body.length = 0 ∨ body.length % Block.size ≠ 0 := by
      refine Decidable.byContradiction fun hwhole => hmalformed ?_
      have hne : body ≠ [] := fun hnil => hwhole (Or.inl (congrArg List.length hnil))
      have hrest : body.length % Block.size = 0 :=
        Decidable.byContradiction fun hrest => hwhole (Or.inr hrest)
      exact Sealer.exists_sealedLength_of_parts htag hne (Nat.dvd_of_mod_eq_zero hrest)
    have hopen : sealer.openBytes (Envelope.toBytes ⟨iv, body, tag⟩) aad =
        .refuse (.rejectedUnaligned (Envelope.toBytes ⟨iv, body, tag⟩).length)
          (.malformedCiphertext .notWholeBlocks) := by
      rw [Sealer.openBytes, ← htag, Envelope.ofBytes_of_unaligned hbad]
      rfl
    rw [hopen]
    exact (openBytes_of_room htag h).trans (if_pos hbad)

theorem openBytes_of_whole {bytes : Bytes} (h : bytes.length < 2 ^ 64) (haad : aad.length < 2 ^ 64)
    (hwhole : ∃ n, sealer.sealedLength n = bytes.length) :
    openBytes sealer bytes aad = (do
      let _ ← wrappingMul (.ofNat aad.length) (.ofNat 8)
      return sealer.openBytes bytes aad) := by
  obtain ⟨hroom, hbody⟩ := Sealer.exists_sealedLength_iff.mp hwhole
  obtain ⟨⟨iv, body, tag⟩, rfl, htag, hne, hdvd⟩ := Envelope.exists_whole_parts hroom hbody
  have hlen : body.length < 2 ^ 64 := by
    rw [Envelope.length_toBytes] at h
    dsimp only at h
    omega
  rw [Envelope.toBytes] at h ⊢
  dsimp only at htag
  rw [openBytes_of_room htag h, if_neg, openParts_eq hlen haad htag hne hdvd]
  have hpos := List.length_pos_iff.mpr hne
  have hrest := Nat.mod_eq_zero_of_dvd hdvd
  omega

end

/-- **No step of sealing and opening is ever out of range.** For byte strings of every length that a
slice can have, whatever is in them, the programs run to their end. They give what the functions
give, and no product wraps but that of the length field, which is taken once for a tag and not at
all for what cannot be an envelope. -/
theorem sealing_and_opening_never_fault :
    (∀ (sealer : Sealer) (bytes aad : Bytes), bytes.length ≤ 2 ^ 63 - 1 → aad.length ≤ 2 ^ 63 - 1 →
      ((∃ n, sealer.sealedLength n = bytes.length) →
        (openBytes sealer bytes aad).run [] =
          some (sealer.openBytes bytes aad, [⟨.ofNat aad.length, .ofNat 8⟩])) ∧
      ((¬ ∃ n, sealer.sealedLength n = bytes.length) →
        (openBytes sealer bytes aad).run [] = some (sealer.openBytes bytes aad, []))) ∧
    (∀ (key : Aes.Key) (iv : Block) (ciphertext : Bytes), ciphertext.length ≤ 2 ^ 63 - 1 →
      (cbcDecrypt key iv ciphertext).run [] = some (Cbc.decrypt key iv ciphertext, [])) ∧
    (∀ padded : Bytes, padded.length ≤ 2 ^ 63 - 1 →
      (unpad padded).run [] = some (Padding.unpad padded, [])) ∧
    (∀ half : Bytes, half.length ≤ 2 ^ 63 - 1 →
      (ofHalf half).run [] = some (Aes.Key.ofHalf half, [])) ∧
    (∀ plaintext : Bytes, plaintext.length ≤ 2 ^ 63 - 1 →
      (pad plaintext).run [] = some (Padding.pad plaintext, [])) ∧
    (∀ (sealer : Sealer) (iv : Block) (plaintext aad : Bytes), plaintext.length ≤ 2 ^ 63 - 1 →
      aad.length ≤ 2 ^ 63 - 1 →
      (sealBytes sealer iv plaintext aad).run [] =
        some (sealer.sealBytes iv plaintext aad, [⟨.ofNat aad.length, .ofNat 8⟩])) := by
  refine ⟨?_, ?_, ?_, ?_, ?_, ?_⟩
  · intro sealer bytes aad hbytes haad
    constructor
    · intro hwhole
      rw [openBytes_of_whole (by omega) (by omega) hwhole]
      exact run_wrappingMul _ _ _
    · intro hmalformed
      rw [openBytes_of_malformed (by omega) hmalformed]
      rfl
  · intro key iv ciphertext h
    rw [cbcDecrypt_eq (by omega)]
    rfl
  · intro padded h
    rw [unpad_eq (by omega)]
    rfl
  · intro half h
    rw [ofHalf_eq (by omega)]
    rfl
  · intro plaintext h
    have hsize : Block.size = 16 := rfl
    rw [pad_eq (by omega)]
    rfl
  · intro sealer iv plaintext aad hplaintext haad
    rw [sealBytes_eq (by omega) (by omega)]
    exact run_wrappingMul _ _ _

/-- Three bytes under a key of 48, sealed and opened, and a byte string that is too short. -/
theorem sealing_and_opening_never_fault_sealed :
    ∃ sealer bytes, (Sealer.ofKey (List.replicate 48 7)).outcome = .ok sealer ∧
      (sealBytes sealer .zero [1, 2, 3] [4]).run [] = some (.ok bytes, [⟨1, 8⟩]) ∧
      (openBytes sealer bytes [4]).run [] = some (.done [1, 2, 3], [⟨1, 8⟩]) ∧
      (openBytes sealer [5] [4]).run [] =
        some (.refuse (.rejectedShort 1) (.malformedCiphertext .tooShort), []) := by
  have hkey : (List.replicate 48 (7 : UInt8)).length = Variant.a192cbcHs384.keySize := rfl
  obtain ⟨hopens, _, _, _, _, hseals⟩ := sealing_and_opening_never_fault
  let sealer := Sealer.ofHalves .a192cbcHs384 (List.replicate 24 7) (List.replicate 24 7)
  have hpredicted : sealer.sealedLength 3 = 56 := rfl
  obtain ⟨bytes, hseal⟩ : ∃ bytes, sealer.sealBytes .zero [1, 2, 3] [4] = .ok bytes :=
    ⟨_, Sealer.sealBytes_eq .zero [1, 2, 3] [4]⟩
  have hlen : bytes.length = 56 := (Sealer.length_of_sealBytes hseal).trans hpredicted
  refine ⟨sealer, bytes, congrArg Traced.outcome (Sealer.ofKey_of_length hkey), ?_, ?_, ?_⟩
  · rw [← hseal]
    exact hseals sealer .zero [1, 2, 3] [4] (by decide) (by decide)
  · rw [← Sealer.openBytes_sealBytes hseal]
    exact (hopens sealer bytes [4] (by omega) (by decide)).1 ⟨3, hpredicted.trans hlen.symm⟩
  · have hshort : ([5] : Bytes).length < Block.size + sealer.tagSize := by decide
    rw [(hopens sealer [5] [4] (by decide) (by decide)).2]
    · rw [Sealer.openBytes_of_verdict (.short hshort)]
      rfl
    · rw [Sealer.exists_sealedLength_iff]
      exact fun hroom => Nat.not_lt.mpr hroom.1 hshort

end EncryptThenMac.Machine
