/-!
# Arithmetic in machine words

Lengths are natural numbers in this library, and nothing that is computed with them can leave
their range. A machine computes in words of 64 bits. The operations here are those of the machine
with the range checked: they give a result exactly where the machine gives the number that is
meant, and `none` where it would wrap around.

Each operation has one law, an equivalence that says in natural numbers which result it gives.
What is built from them is reasoned about with these laws alone and never with a word.
-/

namespace EncryptThenMac.MachineWord

/-- The sum, if it is a word. -/
def add? (a b : UInt64) : Option UInt64 :=
  if a.toNat + b.toNat < UInt64.size then some (a + b) else none

/-- The difference, if it is not below zero. -/
def sub? (a b : UInt64) : Option UInt64 :=
  if b ≤ a then some (a - b) else none

def mul? (a b : UInt64) : Option UInt64 :=
  if a.toNat * b.toNat < UInt64.size then some (a * b) else none

variable {a b c : UInt64}

theorem add?_of_lt (h : a.toNat + b.toNat < UInt64.size) : add? a b = some (a + b) :=
  if_pos h

/-- There is no sum exactly where a machine would wrap around. -/
theorem add?_eq_none_iff : add? a b = none ↔ UInt64.size ≤ a.toNat + b.toNat := by
  rw [add?, ← Nat.not_lt]
  split
  · next h => simp [h]
  · next h => simp [h]

/-- Whatever is given for a sum is the sum of the numbers. -/
theorem add?_eq_some_iff : add? a b = some c ↔ c.toNat = a.toNat + b.toNat := by
  by_cases h : a.toNat + b.toNat < UInt64.size
  · have hsum : (a + b).toNat = a.toNat + b.toNat := by
      rw [UInt64.toNat_add]
      exact Nat.mod_eq_of_lt h
    rw [add?_of_lt h, Option.some_inj, ← UInt64.toNat_inj, hsum, eq_comm]
  · rw [add?_eq_none_iff.mpr (Nat.le_of_not_lt h)]
    constructor
    · intro hnone
      exact absurd hnone (by simp)
    · intro hsum
      exact absurd (hsum ▸ c.toNat_lt_size) h

/-- The difference is the word that makes up for what was taken away. -/
theorem sub?_eq_some_iff : sub? a b = some c ↔ c.toNat + b.toNat = a.toNat := by
  rw [sub?]
  split
  · next h =>
    have hle : b.toNat ≤ a.toNat := UInt64.le_iff_toNat_le.mp h
    rw [Option.some_inj, ← UInt64.toNat_inj, UInt64.toNat_sub_of_le _ _ h]
    omega
  · next h =>
    have hlt : ¬ b.toNat ≤ a.toNat := fun hle => h (UInt64.le_iff_toNat_le.mpr hle)
    constructor
    · intro hnone
      exact absurd hnone (by simp)
    · intro hsum
      omega

theorem mul?_eq_some_iff : mul? a b = some c ↔ c.toNat = a.toNat * b.toNat := by
  rw [mul?]
  split
  · next h =>
    have hproduct : (a * b).toNat = a.toNat * b.toNat := by
      rw [UInt64.toNat_mul]
      exact Nat.mod_eq_of_lt h
    rw [Option.some_inj, ← UInt64.toNat_inj, hproduct, eq_comm]
  · next h =>
    constructor
    · intro hnone
      exact absurd hnone (by simp)
    · intro hproduct
      exact absurd (hproduct ▸ c.toNat_lt_size) h

theorem exists_add? (a b : UInt64) (h : a.toNat + b.toNat < UInt64.size) :
    ∃ c, add? a b = some c ∧ c.toNat = a.toNat + b.toNat :=
  ⟨_, add?_of_lt h, add?_eq_some_iff.mp (add?_of_lt h)⟩

theorem exists_sub? (a b : UInt64) (h : b.toNat ≤ a.toNat) :
    ∃ c, sub? a b = some c ∧ c.toNat + b.toNat = a.toNat := by
  have hsub : sub? a b = some (a - b) := if_pos (UInt64.le_iff_toNat_le.mpr h)
  exact ⟨_, hsub, sub?_eq_some_iff.mp hsub⟩

end EncryptThenMac.MachineWord
