import EncryptThenMac.Proofs.WholeBlocks
import Mathlib.Order.Bounds.Defs

/-!
# What unpadding refuses

`Padding.unpad` is written for its running time and not for its reader: sixteen comparisons, each
under a mask, on a byte that nobody has vouched for. `unpad_eq_ok_iff` says what it accepts. Here
are the two other ways to say what it does, and they agree with it on every byte string.

* As the textbook has it, `strip?`: read the last byte, see that it is a number from 1 to 16, see
  that so many bytes at the end are equal to it, and drop them. It stops at the first fault, and
  that is all it does otherwise than `unpad` (`unpad_eq_strip?`).
* As a list of faults, `Faulty`: a byte string that is empty or does not fill whole blocks, that
  ends in a byte which is no amount, or that has another byte among its last `k`. What has one of
  them is what no padding has written (`faulty_iff`), and all five are reported in one way.

How long a padded byte string is follows from the same rule, and it is said without `amount`: it
is the least multiple of the block size that leaves room for a byte (`isLeast_length_pad`).
-/

namespace EncryptThenMac.Padding

/-! ## The textbook -/

/-- Whether the last `k` bytes of a last block are all `k`, for a `k` that can be an amount. -/
def endsPlainly (lastBlock : Bytes) (k : UInt8) : Bool :=
  decide (1 ≤ k.toNat ∧ k.toNat ≤ Block.size) &&
    (lastBlock.drop (Block.size - k.toNat)).all (· == k)

def strip? (bytes : Bytes) : Option Bytes :=
  match bytes.getLast? with
  | none => none
  | some k =>
    if Block.size ∣ bytes.length ∧ (1 ≤ k.toNat ∧ k.toNat ≤ Block.size) ∧
        (bytes.drop (bytes.length - k.toNat)).all (· == k) then
      some (bytes.take (bytes.length - k.toNat))
    else none

/-- **The walk and the textbook's check are one function**, whatever `k` is. -/
theorem isPadded_eq_endsPlainly {lastBlock : Bytes} (hlen : lastBlock.length = Block.size)
    (k : UInt8) : isPadded lastBlock k = endsPlainly lastBlock k := by
  rw [Bool.eq_iff_iff, isPadded_iff hlen, endsPlainly, Bool.and_eq_true, decide_eq_true_eq]
  refine and_congr_right fun hk => ?_
  rw [List.suffix_iff_eq_drop, List.length_replicate, hlen, eq_comm, List.eq_replicate_iff,
    List.length_drop, hlen, List.all_eq_true]
  constructor
  · rintro ⟨_, hall⟩ byte hbyte
    exact beq_iff_eq.mpr (hall byte hbyte)
  · intro hall
    exact ⟨by omega, fun byte hbyte => beq_iff_eq.mp (hall byte hbyte)⟩

theorem eq_pad_of_strip? {bytes plaintext : Bytes} (h : strip? bytes = some plaintext) :
    bytes = pad plaintext := by
  unfold strip? at h
  split at h
  · exact absurd h (by simp)
  · next k hlast =>
    split at h
    · next hk =>
      obtain ⟨hdvd, ⟨hpos, hle⟩, hall⟩ := hk
      obtain rfl := Option.some.inj h
      have hroom : k.toNat ≤ bytes.length := by
        refine Nat.le_trans hle (Nat.le_of_dvd ?_ hdvd)
        exact List.length_pos_of_mem (List.mem_of_getLast? hlast)
      have hback : bytes.drop (bytes.length - k.toNat) = List.replicate k.toNat k := by
        rw [List.eq_replicate_iff, List.length_drop]
        exact ⟨by omega, fun byte hbyte => beq_iff_eq.mp (List.all_eq_true.mp hall byte hbyte)⟩
      have hfront : (bytes.take (bytes.length - k.toNat)).length + k.toNat = bytes.length := by
        rw [List.length_take]
        omega
      rw [← eq_pad_of_append hpos hle (by rw [hfront]; exact hdvd), UInt8.ofNat_toNat, ← hback,
        List.take_append_drop]
    · exact absurd h (by simp)

theorem strip?_pad (plaintext : Bytes) : strip? (pad plaintext) = some plaintext := by
  have hk := toNat_ofNat_amount (amount_le plaintext.length)
  have hlen : (pad plaintext).length - amount plaintext.length = plaintext.length := by
    rw [length_pad, Nat.add_sub_cancel]
  rw [strip?, getLast?_pad]
  dsimp only
  rw [hk, hlen, if_pos]
  · rw [pad, List.take_left' rfl]
  · refine ⟨size_dvd_length_pad plaintext, ⟨amount_pos _, amount_le _⟩, List.all_eq_true.mpr ?_⟩
    intro byte hbyte
    rw [pad, List.drop_left' rfl] at hbyte
    exact beq_iff_eq.mpr (List.eq_of_mem_replicate hbyte)

theorem unpad_eq_strip? (bytes : Bytes) :
    unpad bytes = (strip? bytes).elim (.error .decryptionFailed) .ok := by
  cases hstrip : strip? bytes with
  | some plaintext =>
    rw [eq_pad_of_strip? hstrip]
    exact unpad_pad plaintext
  | none =>
    rcases unpad_cases bytes with ⟨plaintext, hok⟩ | herror
    · rw [eq_pad_of_unpad hok, strip?_pad] at hstrip
      exact absurd hstrip (by simp)
    · exact herror

/-! ## The faults -/

/-- What can be wrong with a padding. -/
inductive Faulty (bytes : Bytes) : Prop where
  | empty : bytes = [] → Faulty bytes
  | unaligned : ¬ Block.size ∣ bytes.length → Faulty bytes
  | zero : bytes.getLast? = some 0 → Faulty bytes
  | above {k : UInt8} : bytes.getLast? = some k → Block.size < k.toNat → Faulty bytes
  -- Counted from the end, one of the last `k` bytes is not `k`.
  | differs {k x : UInt8} {i : Nat} : bytes.getLast? = some k → i < k.toNat →
      bytes.reverse[i]? = some x → x ≠ k → Faulty bytes

theorem not_faulty_pad (plaintext : Bytes) : ¬ Faulty (pad plaintext) := by
  have hk := toNat_ofNat_amount (amount_le plaintext.length)
  intro h
  cases h with
  | empty hnil => exact pad_ne_nil plaintext hnil
  | unaligned hdvd => exact hdvd (size_dvd_length_pad plaintext)
  | zero hlast =>
    rw [getLast?_pad] at hlast
    have hpos := amount_pos plaintext.length
    rw [Option.some.inj hlast] at hk
    exact absurd hk.symm (Nat.ne_of_gt hpos)
  | above hlast hlt =>
    rw [getLast?_pad] at hlast
    rw [← Option.some.inj hlast, hk] at hlt
    exact absurd hlt (Nat.not_lt.mpr (amount_le plaintext.length))
  | @differs k x i hlast hi hx hne =>
    rw [getLast?_pad] at hlast
    obtain rfl := Option.some.inj hlast
    refine hne ((replicate_suffix_iff (n := (UInt8.ofNat (amount plaintext.length)).toNat) ?_).mp
      ?_ i x hx hi)
    · rw [hk, length_pad]
      exact Nat.le_add_left _ _
    · rw [hk]
      exact List.suffix_append plaintext _

/-- Where nothing is wrong, there is a padding. -/
theorem exists_pad_of_not_faulty {bytes : Bytes} (h : ¬ Faulty bytes) :
    ∃ plaintext, bytes = pad plaintext := by
  have hne : bytes ≠ [] := fun hnil => h (.empty hnil)
  have hdvd : Block.size ∣ bytes.length := Decidable.byContradiction fun hdvd => h (.unaligned hdvd)
  obtain ⟨k, hlast⟩ : ∃ k, bytes.getLast? = some k :=
    ⟨_, List.getLast?_eq_some_getLast hne⟩
  have hpos : 0 < k.toNat := by
    refine Nat.pos_of_ne_zero fun hzero => h (.zero ?_)
    rw [hlast]
    exact congrArg some (UInt8.toNat.inj hzero)
  have hle : k.toNat ≤ Block.size := Nat.not_lt.mp fun hlt => h (.above hlast hlt)
  have hroom : k.toNat ≤ bytes.length :=
    Nat.le_trans hle (Nat.le_of_dvd (List.length_pos_iff.mpr hne) hdvd)
  have hsuffix : List.replicate k.toNat k <:+ bytes := by
    rw [replicate_suffix_iff hroom]
    intro i x hx hi
    exact Decidable.byContradiction fun hdiffers => h (.differs hlast hi hx hdiffers)
  obtain ⟨front, hfront⟩ := hsuffix
  refine (endsInPad_iff hdvd).mp ⟨front, k.toNat, hpos, hle, ?_⟩
  rw [UInt8.ofNat_toNat, hfront]

theorem faulty_iff {bytes : Bytes} : Faulty bytes ↔ ∀ plaintext, bytes ≠ pad plaintext := by
  constructor
  · rintro h plaintext rfl
    exact not_faulty_pad plaintext h
  · intro h
    refine Classical.byContradiction fun hsound => ?_
    obtain ⟨plaintext, hpad⟩ := exists_pad_of_not_faulty hsound
    exact h plaintext hpad

theorem unpad_eq_error_iff {bytes : Bytes} {error : Error} :
    unpad bytes = .error error ↔
      error = .decryptionFailed ∧ ∀ plaintext, bytes ≠ pad plaintext := by
  constructor
  · intro h
    rcases unpad_cases bytes with ⟨plaintext, hok⟩ | herror
    · rw [hok] at h
      exact absurd h (by simp)
    · refine ⟨Except.error.inj (h.symm.trans herror), ?_⟩
      rintro plaintext rfl
      rw [unpad_pad] at h
      exact absurd h (by simp)
  · rintro ⟨rfl, hother⟩
    rcases unpad_cases bytes with ⟨plaintext, hok⟩ | herror
    · exact absurd (eq_pad_of_unpad hok) (hother plaintext)
    · exact herror

/-! ## The length of what is padded -/

theorem isLeast_length_pad (plaintext : Bytes) :
    IsLeast {n | Block.size ∣ n ∧ plaintext.length < n} (pad plaintext).length := by
  constructor
  · refine ⟨size_dvd_length_pad plaintext, ?_⟩
    rw [length_pad]
    exact Nat.lt_add_of_pos_right (amount_pos _)
  · rintro n ⟨⟨blocks, rfl⟩, hlt⟩
    rw [length_pad]
    simp only [amount, Block.size] at *
    omega

/-- **Unpadding accepts exactly what padding writes**, and gives it back unchanged; everything
else has one of five faults and is refused in one way. A padding reaches the next block border
that leaves room for it and is put behind the plaintext, so nothing is padded to the same bytes as
something else. The walk over the last block is the textbook's check, for every byte that could
stand at the end. -/
theorem unpadding_inverts_padding :
    (∀ bytes plaintext, unpad bytes = .ok plaintext ↔ bytes = pad plaintext) ∧
    (∀ bytes error, unpad bytes = .error error ↔
      error = .decryptionFailed ∧ ∀ plaintext, bytes ≠ pad plaintext) ∧
    (∀ bytes, (∀ plaintext, bytes ≠ pad plaintext) ↔ Faulty bytes) ∧
    (∀ plaintext, IsLeast {n | Block.size ∣ n ∧ plaintext.length < n} (pad plaintext).length ∧
      plaintext <+: pad plaintext) ∧
    Function.Injective pad ∧
    (∀ lastBlock k, lastBlock.length = Block.size →
      isPadded lastBlock k = endsPlainly lastBlock k) ∧
    (∀ bytes, unpad bytes = (strip? bytes).elim (.error .decryptionFailed) .ok) := by
  refine ⟨?_, ?_, ?_, ?_, ?_, ?_, unpad_eq_strip?⟩
  · intro bytes plaintext
    exact unpad_eq_ok_iff
  · intro bytes error
    exact unpad_eq_error_iff
  · intro bytes
    exact faulty_iff.symm
  · intro plaintext
    exact ⟨isLeast_length_pad plaintext, List.prefix_append _ _⟩
  · intro plaintext plaintext' h
    exact pad_injective h
  · intro lastBlock k hlen
    exact isPadded_eq_endsPlainly hlen k

end EncryptThenMac.Padding
