import EncryptThenMac.Block
import EncryptThenMac.Proofs.MachineWord
import Mathlib.Algebra.Group.Nat.Defs

/-!
# Programs of a machine

A function of this library takes lists apart and reckons with natural numbers, and nothing it does
can be out of range. A program that does the same on a machine has words of 64 bits for its numbers
and slices for its byte strings, and almost every step of it has a condition: a sum has to fit, a
difference must not go below zero, a slice is cut only within its bounds, a byte is taken only from
where there is one, a number is made a byte only if it is one. Where the condition does not hold the
program stops, which is here the outcome `none`, a *fault*.

One operation is there to wrap around: a product modulo the size of a word. It has no condition, but
a program keeps a record of the products of this kind that it has taken.

Each operation has one law. It says, for words that stand for natural numbers, that where the
condition holds the operation is `pure` of what is meant. A program is then evaluated by rewriting,
and the conditions are what is left to show.
-/

namespace EncryptThenMac

/-- A product taken modulo the size of a word, by its factors. -/
structure WrappedProduct where
  left : UInt64
  right : UInt64
deriving DecidableEq

/-- A program, with the products that it has let wrap for a state. -/
abbrev Machine :=
  StateT (List WrappedProduct) Option

namespace Machine

/-! ## Words and bytes -/

/-- A sum that has to fit. -/
def add (a b : UInt64) : Machine UInt64 :=
  StateT.lift (MachineWord.add? a b)

/-- A difference that must not go below zero. -/
def sub (a b : UInt64) : Machine UInt64 :=
  StateT.lift (MachineWord.sub? a b)

def mul (a b : UInt64) : Machine UInt64 :=
  StateT.lift (MachineWord.mul? a b)

def rem (a b : UInt64) : Machine UInt64 :=
  if b = 0 then failure else pure (a % b)

/-- The one product that may wrap. -/
def wrappingMul (a b : UInt64) : Machine UInt64 := do
  modify (· ++ [⟨a, b⟩])
  return a * b

/-- A word made a byte. On a machine the high bits would be dropped. Here there must be none. -/
def toByte (a : UInt64) : Machine UInt8 :=
  if a.toNat < UInt8.size then pure (UInt8.ofNat a.toNat) else failure

/-- A byte made a word. There is room for every byte. -/
def ofByte (byte : UInt8) : UInt64 :=
  UInt64.ofNat byte.toNat

def addByte (a b : UInt8) : Machine UInt8 :=
  if a.toNat + b.toNat < UInt8.size then pure (a + b) else failure

/-! ## Slices -/

/-- The length, for what is no longer than a word can say. -/
def length (bytes : Bytes) : Machine UInt64 :=
  if bytes.length < UInt64.size then pure (.ofNat bytes.length) else failure

/-- Both sides of a place within the bounds. -/
def splitAt (bytes : Bytes) (i : UInt64) : Machine (Bytes × Bytes) :=
  if i.toNat ≤ bytes.length then pure (bytes.take i.toNat, bytes.drop i.toNat) else failure

def sliceFrom (bytes : Bytes) (i : UInt64) : Machine Bytes :=
  if i.toNat ≤ bytes.length then pure (bytes.drop i.toNat) else failure

def index (bytes : Bytes) (i : UInt64) : Machine UInt8 :=
  StateT.lift bytes[i.toNat]?

/-- A copy into, or a view as, an array of one block. The lengths have to agree. -/
def block (bytes : Bytes) : Machine Block :=
  if h : bytes.length = Block.size then pure (Block.ofBytes bytes h) else failure

/-- A byte string cut down to a length. One that is not longer stays as it is. -/
def truncate (bytes : Bytes) (n : UInt64) : Bytes :=
  bytes.take n.toNat

/-- A byte string made longer with copies of a byte, or cut down. -/
def resize (bytes : Bytes) (n : UInt64) (byte : UInt8) : Machine Bytes := do
  let len ← length bytes
  if len < n then
    let more ← sub n len
    return bytes ++ List.replicate more.toNat byte
  else return truncate bytes n

def assert (p : Prop) [Decidable p] : Machine Unit :=
  if p then pure () else failure

/-! ## The laws -/

section

variable {a b n : Nat} {bytes : Bytes}

theorem toNat_word (h : n < 2 ^ 64) : (UInt64.ofNat n).toNat = n :=
  UInt64.toNat_ofNat_of_lt' h

theorem word_lt_iff (ha : a < 2 ^ 64) (hb : b < 2 ^ 64) :
    UInt64.ofNat a < UInt64.ofNat b ↔ a < b := by
  rw [UInt64.lt_iff_toNat_lt, toNat_word ha, toNat_word hb]

theorem word_eq_iff (ha : a < 2 ^ 64) (hb : b < 2 ^ 64) :
    UInt64.ofNat a = UInt64.ofNat b ↔ a = b := by
  rw [← UInt64.toNat_inj, toNat_word ha, toNat_word hb]

theorem add_word (h : a + b < 2 ^ 64) : add (.ofNat a) (.ofNat b) = pure (.ofNat (a + b)) := by
  have hsum : MachineWord.add? (.ofNat a) (.ofNat b) = some (.ofNat (a + b)) := by
    rw [MachineWord.add?_eq_some_iff, toNat_word h, toNat_word (by omega), toNat_word (by omega)]
  rw [add, hsum]
  rfl

theorem sub_word (ha : a < 2 ^ 64) (h : b ≤ a) :
    sub (.ofNat a) (.ofNat b) = pure (.ofNat (a - b)) := by
  have hdifference : MachineWord.sub? (.ofNat a) (.ofNat b) = some (.ofNat (a - b)) := by
    rw [MachineWord.sub?_eq_some_iff, toNat_word ha, toNat_word (by omega), toNat_word (by omega)]
    omega
  rw [sub, hdifference]
  rfl

theorem mul_word (ha : a < 2 ^ 64) (hb : b < 2 ^ 64) (h : a * b < 2 ^ 64) :
    mul (.ofNat a) (.ofNat b) = pure (.ofNat (a * b)) := by
  have hproduct : MachineWord.mul? (.ofNat a) (.ofNat b) = some (.ofNat (a * b)) := by
    rw [MachineWord.mul?_eq_some_iff, toNat_word h, toNat_word ha, toNat_word hb]
  rw [mul, hproduct]
  rfl

/-- The largest half that can be doubled is one byte short of this. -/
example : (mul 9223372036854775808 2).run [] = none := by decide

theorem rem_word (ha : a < 2 ^ 64) (hb : b < 2 ^ 64) (h : 0 < b) :
    rem (.ofNat a) (.ofNat b) = pure (.ofNat (a % b)) := by
  have hzero : ¬ UInt64.ofNat b = 0 := by
    rw [← UInt64.toNat_inj, toNat_word hb]
    exact Nat.ne_of_gt h
  have hrest : UInt64.ofNat a % UInt64.ofNat b = .ofNat (a % b) := by
    rw [← UInt64.toNat_inj, UInt64.toNat_mod, toNat_word ha, toNat_word hb,
      toNat_word (Nat.lt_of_le_of_lt (Nat.mod_le a b) ha)]
  rw [rem, if_neg hzero, hrest]

theorem toByte_word (h : n < 256) : toByte (.ofNat n) = pure (UInt8.ofNat n) := by
  rw [toByte, toNat_word (by omega), if_pos h]

theorem addByte_ofNat (h : a + b < 256) :
    addByte (.ofNat a) (.ofNat b) = pure (UInt8.ofNat (a + b)) := by
  have ha : (UInt8.ofNat a).toNat = a := UInt8.toNat_ofNat_of_lt' (Nat.lt_of_add_right_lt h)
  have hb : (UInt8.ofNat b).toNat = b := UInt8.toNat_ofNat_of_lt' (Nat.lt_of_add_left_lt h)
  rw [addByte, ha, hb, if_pos h, UInt8.ofNat_add]

theorem length_eq (h : bytes.length < 2 ^ 64) : length bytes = pure (.ofNat bytes.length) :=
  if_pos h

theorem splitAt_word (hn : n < 2 ^ 64) (h : n ≤ bytes.length) :
    splitAt bytes (.ofNat n) = pure (bytes.take n, bytes.drop n) := by
  rw [splitAt, toNat_word hn, if_pos h]

/-- Where two byte strings meet they are taken apart again. -/
theorem splitAt_append {front back : Bytes} (hn : n < 2 ^ 64) (h : front.length = n) :
    splitAt (front ++ back) (.ofNat n) = pure (front, back) := by
  have hle : n ≤ (front ++ back).length := by
    rw [List.length_append]
    omega
  rw [splitAt_word hn hle, List.take_left' h, List.drop_left' h]

theorem sliceFrom_word (hn : n < 2 ^ 64) (h : n ≤ bytes.length) :
    sliceFrom bytes (.ofNat n) = pure (bytes.drop n) := by
  rw [sliceFrom, toNat_word hn, if_pos h]

theorem index_word (hn : n < 2 ^ 64) (h : n < bytes.length) :
    index bytes (.ofNat n) = pure bytes[n] := by
  rw [index, toNat_word hn, List.getElem?_eq_getElem h]
  rfl

/-- The bytes of a block are as many as an array of one block has. -/
theorem block_toBytes (x : Block) : block x.toBytes = pure x := by
  rw [block, dif_pos (Block.length_toBytes x)]
  exact congrArg pure (Block.toBytes_injective (Block.toBytes_ofBytes _ _))

theorem truncate_word (hn : n < 2 ^ 64) : truncate bytes (.ofNat n) = bytes.take n := by
  rw [truncate, toNat_word hn]

theorem resize_word {byte : UInt8} (hn : n < 2 ^ 64) (h : bytes.length < n) :
    resize bytes (.ofNat n) byte =
      pure (bytes ++ List.replicate (n - bytes.length) byte) := by
  have hlen : bytes.length < 2 ^ 64 := Nat.lt_trans h hn
  rw [resize, length_eq hlen, pure_bind, if_pos ((word_lt_iff hlen hn).mpr h),
    sub_word hn (Nat.le_of_lt h), pure_bind, toNat_word (Nat.lt_of_le_of_lt (Nat.sub_le n _) hn)]

/-- A product that may wrap is what it is, and leaves a record. -/
theorem wrappingMul_bind {α : Type} (a b : UInt64) (next : UInt64 → Machine α) :
    wrappingMul a b >>= next = wrappingMul a b >>= fun _ => next (a * b) := rfl

/-- What a run gives if the only product that may wrap comes first. -/
theorem run_wrappingMul {α : Type} (a b : UInt64) (result : α) :
    (wrappingMul a b >>= fun _ => pure result : Machine α).run [] = some (result, [⟨a, b⟩]) := rfl

theorem assert_of {p : Prop} [Decidable p] (h : p) : assert p = pure () :=
  if_pos h

end

end Machine

end EncryptThenMac
