import EncryptThenMac.Padding

/-!
# What unpadding accepts

`Padding.unpad` walks the whole last block and collects one verdict, so that the work it does
says nothing of the bytes it saw. This file says what that verdict *means*. There is a plain
rule, `EndsInPad`: the byte string ends in `k` bytes of the value `k`, for some `k` from 1 to
16. The walk decides it (`isPadded_iff`), and on whole blocks it does so for exactly one `k`,
because a padding has to reach the next block border and not a later one.

The result that the rest of the development uses is `unpad_eq_ok_iff`:

> `unpad b = .ok p ↔ b = pad p`

Both directions matter. From right to left, what was padded comes back. From left to right,
unpadding accepts nothing that padding did not write, which is what makes an accepted envelope
have no second encoding.
-/

namespace EncryptThenMac.Padding

/-! ## The walk over the last block

The fold carries a verdict and nothing else, so it is the conjunction of what it started with
and of one test for each byte. -/

theorem foldl_and_eq_all {α : Type} (test : α → Bool) : ∀ (valid : Bool) (xs : List α),
    xs.foldl (fun valid x => valid && test x) valid = (valid && xs.all test)
  | valid, [] => by rw [List.foldl_nil, List.all_nil, Bool.and_true]
  | valid, x :: xs => by
    rw [List.foldl_cons, foldl_and_eq_all test (valid && test x) xs, List.all_cons, Bool.and_assoc]

/-- A list ends in copies of `a` if the elements that lie close enough to its end are all `a`.
-/
theorem replicate_suffix_iff {α : Type} {a : α} {n : Nat} {xs : List α} (hn : n ≤ xs.length) :
    List.replicate n a <:+ xs ↔ ∀ i x, xs.reverse[i]? = some x → i < n → x = a := by
  rw [← List.reverse_prefix, List.reverse_replicate, List.prefix_iff_eq_take]
  simp only [List.length_replicate]
  constructor
  · intro h i x hx hi
    have hmem : x ∈ xs.reverse.take n := by
      have hix : (xs.reverse.take n)[i]? = some x := by rw [List.getElem?_take_of_lt hi, hx]
      exact List.mem_of_getElem? hix
    rw [← h] at hmem
    exact List.eq_of_mem_replicate hmem
  · intro h
    symm
    rw [List.eq_replicate_iff]
    refine ⟨by rw [List.length_take, List.length_reverse]; exact Nat.min_eq_left hn, ?_⟩
    intro x hx
    obtain ⟨i, hi, hxi⟩ := List.mem_iff_getElem.mp hx
    rw [List.length_take] at hi
    rw [List.getElem_take] at hxi
    exact h i x (by rw [← hxi]; exact List.getElem?_eq_getElem _) (by omega)

theorem ofNat_lt_iff {i : Nat} {k : UInt8} (hi : i < 256) : UInt8.ofNat i < k ↔ i < k.toNat := by
  rw [UInt8.lt_iff_toNat_lt, UInt8.toNat_ofNat', Nat.mod_eq_of_lt hi]

/-- **The walk decides the plain rule.** The position is compared as a byte, which loses nothing
because a block has fewer than 256 of them. -/
theorem isPadded_iff {lastBlock : Bytes} {k : UInt8} (hlen : lastBlock.length = Block.size) :
    isPadded lastBlock k = true ↔
      (0 < k.toNat ∧ k.toNat ≤ Block.size) ∧ List.replicate k.toNat k <:+ lastBlock := by
  have range : (decide (0 < k) && decide (k < UInt8.ofNat (Block.size + 1))) = true ↔
      0 < k.toNat ∧ k.toNat ≤ Block.size := by
    simp only [Block.size, Bool.and_eq_true, decide_eq_true_eq, UInt8.lt_iff_toNat_lt]
    exact and_congr Iff.rfl Nat.lt_succ_iff
  rw [isPadded, foldl_and_eq_all (fun x : UInt8 × Nat => !decide (UInt8.ofNat x.2 < k) || x.1 == k),
    Bool.and_eq_true, range]
  refine and_congr_right fun hk => ?_
  rw [replicate_suffix_iff (by rw [hlen]; exact hk.2), List.all_eq_true]
  have place : ∀ {i : Nat} {x : UInt8}, lastBlock.reverse[i]? = some x → i < 256 := by
    intro i x hx
    have hi := (List.getElem?_eq_some_iff.mp hx).1
    rw [List.length_reverse, hlen] at hi
    exact Nat.lt_of_lt_of_le hi (by decide)
  constructor
  · intro h i x hx hi
    have hxi := h (x, i) (List.mem_zipIdx_iff_getElem?.mpr hx)
    simp only [Bool.or_eq_true, Bool.not_eq_true', decide_eq_false_iff_not, beq_iff_eq] at hxi
    rcases hxi with hout | heq
    · exact absurd ((ofNat_lt_iff (place hx)).mpr hi) hout
    · exact heq
  · rintro h ⟨x, i⟩ hmem
    have hx := List.mem_zipIdx_iff_getElem?.mp hmem
    simp only [Bool.or_eq_true, Bool.not_eq_true', decide_eq_false_iff_not, beq_iff_eq]
    by_cases hi : i < k.toNat
    · exact Or.inr (h i x hx hi)
    · exact Or.inl fun hlt => hi ((ofNat_lt_iff (place hx)).mp hlt)

/-! ## The plain rule

`k` is a number here and a byte in the walk; the two are the same for the numbers that a padding
can have. -/

/-- The byte string ends in the padding of some amount. -/
def EndsInPad (bytes : Bytes) : Prop :=
  ∃ front k, 0 < k ∧ k ≤ Block.size ∧ bytes = front ++ List.replicate k (UInt8.ofNat k)

theorem toNat_ofNat_amount {k : Nat} (hk : k ≤ Block.size) : (UInt8.ofNat k).toNat = k := by
  rw [UInt8.toNat_ofNat']
  exact Nat.mod_eq_of_lt (Nat.lt_of_le_of_lt hk (by decide))

/-- The amount is the only number of bytes from 1 to 16 that reaches a block border. -/
theorem eq_amount {length k : Nat} (hpos : 0 < k) (hle : k ≤ Block.size)
    (hdvd : Block.size ∣ length + k) : k = amount length := by
  simp only [Block.size, amount] at *
  omega

theorem eq_pad_of_append {front : Bytes} {k : Nat} (hpos : 0 < k) (hle : k ≤ Block.size)
    (hdvd : Block.size ∣ front.length + k) :
    front ++ List.replicate k (UInt8.ofNat k) = pad front := by
  rw [pad, ← eq_amount hpos hle hdvd]

/-- Whole blocks in front do not change a padding. -/
theorem pad_append {front : Bytes} (hfront : Block.size ∣ front.length) (plaintext : Bytes) :
    pad (front ++ plaintext) = front ++ pad plaintext := by
  obtain ⟨blocks, hblocks⟩ := hfront
  have hamount : amount (front ++ plaintext).length = amount plaintext.length := by
    rw [List.length_append, hblocks, amount, amount, Nat.mul_add_mod]
  rw [pad, hamount, pad, List.append_assoc]

theorem endsInPad_pad (plaintext : Bytes) : EndsInPad (pad plaintext) :=
  ⟨plaintext, amount plaintext.length, amount_pos _, amount_le _, rfl⟩

theorem endsInPad_iff {bytes : Bytes} (hdvd : Block.size ∣ bytes.length) :
    EndsInPad bytes ↔ ∃ plaintext, bytes = pad plaintext := by
  constructor
  · rintro ⟨front, k, hpos, hle, rfl⟩
    rw [List.length_append, List.length_replicate] at hdvd
    exact ⟨front, eq_pad_of_append hpos hle hdvd⟩
  · rintro ⟨plaintext, rfl⟩
    exact endsInPad_pad plaintext

/-! ## Unpadding -/

theorem pad_ne_nil (plaintext : Bytes) : pad plaintext ≠ [] := by
  intro h
  have hlen := congrArg List.length h
  rw [length_pad, List.length_nil] at hlen
  have := amount_pos plaintext.length
  omega

/-- The last byte gives the amount. -/
theorem getLast?_pad (plaintext : Bytes) :
    (pad plaintext).getLast? = some (UInt8.ofNat (amount plaintext.length)) := by
  have hpos := amount_pos plaintext.length
  rw [pad, List.getLast?_append, List.getLast?_replicate, if_neg (by omega)]
  rfl

theorem getLastD_pad (plaintext : Bytes) :
    (pad plaintext).getLastD 0 = UInt8.ofNat (amount plaintext.length) := by
  rw [List.getLastD_eq_getLast?, getLast?_pad]
  rfl

/-- Unpadding whole blocks, with the last byte read off the whole byte string instead of its
last block. -/
theorem unpad_of_whole {bytes : Bytes} (hne : bytes ≠ []) (hdvd : Block.size ∣ bytes.length) :
    unpad bytes =
      if (0 < (bytes.getLastD 0).toNat ∧ (bytes.getLastD 0).toNat ≤ Block.size) ∧
          List.replicate (bytes.getLastD 0).toNat (bytes.getLastD 0) <:+ bytes then
        .ok (bytes.take (bytes.length - (bytes.getLastD 0).toNat))
      else .error .decryptionFailed := by
  have hpos : 0 < bytes.length := List.length_pos_iff.mpr hne
  have hsize : Block.size ≤ bytes.length := Nat.le_of_dvd hpos hdvd
  have hlast : (bytes.drop (bytes.length - Block.size)).length = Block.size := by
    rw [List.length_drop]; omega
  have hbyte : (bytes.drop (bytes.length - Block.size)).getLastD 0 = bytes.getLastD 0 := by
    rw [List.getLastD_eq_getLast?, List.getLast?_drop, List.getLastD_eq_getLast?,
      if_neg (by unfold Block.size at *; omega)]
  rw [unpad, if_neg (by rw [Nat.mod_eq_zero_of_dvd hdvd]; omega)]
  simp only [hbyte]
  by_cases hpad : isPadded (bytes.drop (bytes.length - Block.size)) (bytes.getLastD 0) = true
  · have h := (isPadded_iff hlast).mp hpad
    rw [if_pos hpad, if_pos ⟨h.1, h.2.trans (List.drop_suffix _ _)⟩]
  · rw [if_neg hpad, if_neg]
    rintro ⟨hk, hsuffix⟩
    refine hpad ((isPadded_iff hlast).mpr ⟨hk, ?_⟩)
    refine List.suffix_of_suffix_length_le hsuffix (List.drop_suffix _ _) ?_
    rw [List.length_replicate, hlast]
    exact hk.2

theorem unpad_pad (plaintext : Bytes) : unpad (pad plaintext) = .ok plaintext := by
  have hk := toNat_ofNat_amount (amount_le plaintext.length)
  rw [unpad_of_whole (pad_ne_nil plaintext) (size_dvd_length_pad plaintext), getLastD_pad, hk,
    if_pos ⟨⟨amount_pos _, amount_le _⟩, List.suffix_append _ _⟩, length_pad, Nat.add_sub_cancel,
    pad, List.take_left']
  rfl

theorem eq_pad_of_unpad {bytes plaintext : Bytes} (h : unpad bytes = .ok plaintext) :
    bytes = pad plaintext := by
  by_cases hwhole : bytes.length = 0 ∨ bytes.length % Block.size ≠ 0
  · rw [unpad, if_pos hwhole] at h
    exact absurd h (by simp)
  · have hdvd : Block.size ∣ bytes.length := Nat.dvd_of_mod_eq_zero (by omega)
    have hne : bytes ≠ [] := by
      rintro rfl
      exact hwhole (Or.inl rfl)
    rw [unpad_of_whole hne hdvd] at h
    split at h
    · next hpad =>
      obtain ⟨⟨hpos, hle⟩, front, hfront⟩ := hpad
      generalize bytes.getLastD 0 = k at *
      subst hfront
      rw [List.length_append, List.length_replicate, Nat.add_sub_cancel, List.take_left'] at h
      · cases h
        rw [List.length_append, List.length_replicate] at hdvd
        rw [← eq_pad_of_append hpos hle hdvd, UInt8.ofNat_toNat]
      · rfl
    · exact absurd h (by simp)

/-- **Unpadding accepts exactly what padding writes.** -/
theorem unpad_eq_ok_iff {bytes plaintext : Bytes} :
    unpad bytes = .ok plaintext ↔ bytes = pad plaintext :=
  ⟨eq_pad_of_unpad, fun h => h ▸ unpad_pad plaintext⟩

theorem pad_injective {plaintext plaintext' : Bytes} (h : pad plaintext = pad plaintext') :
    plaintext = plaintext' := by
  have hunpad := unpad_pad plaintext
  rw [h, unpad_pad] at hunpad
  exact (Except.ok.inj hunpad).symm

theorem unpad_cases (bytes : Bytes) :
    (∃ plaintext, unpad bytes = .ok plaintext) ∨ unpad bytes = .error .decryptionFailed := by
  unfold unpad
  dsimp only
  split
  · exact Or.inr rfl
  · split
    · exact Or.inl ⟨_, rfl⟩
    · exact Or.inr rfl

/-! In terms of the plain rule, for byte strings of which the plaintext is not known. -/

theorem endsInPad_of_unpad {bytes plaintext : Bytes} (h : unpad bytes = .ok plaintext) :
    EndsInPad bytes := by
  rw [eq_pad_of_unpad h]
  exact endsInPad_pad plaintext

theorem unpad_of_not_endsInPad {bytes : Bytes} (h : ¬ EndsInPad bytes) :
    unpad bytes = .error .decryptionFailed := by
  rcases unpad_cases bytes with ⟨plaintext, hok⟩ | herror
  · exact absurd (endsInPad_of_unpad hok) h
  · exact herror

theorem exists_unpad_of_endsInPad {bytes : Bytes} (hdvd : Block.size ∣ bytes.length)
    (h : EndsInPad bytes) : ∃ plaintext, unpad bytes = .ok plaintext := by
  obtain ⟨plaintext, rfl⟩ := (endsInPad_iff hdvd).mp h
  exact ⟨plaintext, unpad_pad plaintext⟩

end EncryptThenMac.Padding
