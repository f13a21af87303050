import EncryptThenMac.Proofs.Opening

/-!
# The front of an envelope

An envelope is a front and a tag. The front, a vector and a body, is made from a vector and a
plaintext with the cipher key alone; `front` has no argument for the other half of the key or
for the associated data, so it depends on neither. Nothing of what it is made from is lost: the
vector stands in it, and chaining and padding can be undone (`front_injective`).

The front of an envelope is found by position, as all of it but the last bytes
(`take_of_sealBytes`). Two envelopes of keys with one size of tag can therefore be compared by
their fronts, whatever their tags are, and this is how the lemmas here are used.
-/

namespace EncryptThenMac

/-- Under one vector, padded plaintexts are told apart by their ciphertexts. -/
theorem Cbc.encrypt_pad_injective {key : Aes.Key} {iv : Block} {plaintext plaintext' : Bytes}
    (h : encrypt key iv (Padding.pad plaintext) = encrypt key iv (Padding.pad plaintext')) :
    plaintext = plaintext' := by
  have hdecrypt : ∀ p, decrypt key iv (encrypt key iv (Padding.pad p)) = .ok (Padding.pad p) :=
    fun p => decrypt_encrypt (Padding.pad_ne_nil p) (Padding.size_dvd_length_pad p)
  have hpad := hdecrypt plaintext
  rw [h, hdecrypt] at hpad
  exact Padding.pad_injective (Except.ok.inj hpad).symm

namespace Sealer

/-- An envelope without its tag. -/
def front (cipher : Aes.Key) (iv : Block) (plaintext : Bytes) : Bytes :=
  iv.toBytes ++ Cbc.encrypt cipher iv (Padding.pad plaintext)

theorem length_front (cipher : Aes.Key) (iv : Block) (plaintext : Bytes) :
    (front cipher iv plaintext).length =
      Block.size + (plaintext.length + Padding.amount plaintext.length) := by
  rw [front, List.length_append, Block.length_toBytes,
    Cbc.length_encrypt (Padding.size_dvd_length_pad plaintext), Padding.length_pad]

/-- The vector is read off first; under one vector the bodies tell the plaintexts apart. -/
theorem front_injective {cipher : Aes.Key} {iv iv' : Block} {plaintext plaintext' : Bytes}
    (h : front cipher iv plaintext = front cipher iv' plaintext') :
    iv = iv' ∧ plaintext = plaintext' := by
  obtain ⟨hiv, hbody⟩ := List.append_inj h rfl
  obtain rfl := Block.toBytes_injective hiv
  exact ⟨rfl, Cbc.encrypt_pad_injective hbody⟩

variable {sealer : Sealer} {iv : Block} {plaintext aad bytes : Bytes}

/-- There always is an envelope, and it starts with the front. -/
theorem exists_sealBytes (sealer : Sealer) (iv : Block) (plaintext aad : Bytes) :
    ∃ tag : Bytes, tag.length = sealer.tagSize ∧
      sealer.sealBytes iv plaintext aad = .ok (front sealer.cipher iv plaintext ++ tag) :=
  ⟨_, length_rightTag _ _ _, sealBytes_eq iv plaintext aad⟩

theorem take_of_sealBytes (h : sealer.sealBytes iv plaintext aad = .ok bytes) :
    bytes.take (bytes.length - sealer.tagSize) = front sealer.cipher iv plaintext := by
  obtain ⟨tag, htag, hseal⟩ := exists_sealBytes sealer iv plaintext aad
  obtain rfl := Except.ok.inj (h.symm.trans hseal)
  rw [List.length_append, htag, Nat.add_sub_cancel, List.take_left' rfl]

/-- The length that was announced. -/
theorem length_of_sealBytes (h : sealer.sealBytes iv plaintext aad = .ok bytes) :
    bytes.length = sealer.sealedLength plaintext.length := by
  obtain ⟨tag, htag, hseal⟩ := exists_sealBytes sealer iv plaintext aad
  obtain rfl := Except.ok.inj (h.symm.trans hseal)
  rw [List.length_append, length_front, htag, sealedLength, overhead, Padding.amount]
  omega

end Sealer

end EncryptThenMac
