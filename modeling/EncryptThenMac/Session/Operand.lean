import EncryptThenMac.Bytes

/-!
# Operands

The byte strings that a session works on are put together from literal bytes and from what the
session has stored under a name. An `Operand` is such a composition; `Operand.value?` is the
byte string it stands for, given the stored ones. It stands for none if it names a buffer that
is not there, or a place that is not in the byte string it cuts or changes.
-/

namespace EncryptThenMac.Session

/-- Byte strings stored under names. The first entry with a name counts. -/
abbrev Buffers := List (String × Bytes)

/-- How a byte string is put together. -/
inductive Operand where
  | literal (bytes : Bytes)
  | repeated (part : Operand) (count : Nat)
  -- `count` bytes from `start` in steps of `step`, modulo 256.
  | sequence (start step count : Nat)
  | concat (parts : List Operand)
  | slice (whole : Operand) (start stop : Nat)
  -- A byte string with the byte at one place combined with `mask` modulo 256.
  | altered (whole : Operand) (place mask : Nat)
  | buffer (name : String)

mutual

def Operand.value? (buffers : Buffers) : Operand → Option Bytes
  | .literal bytes => some bytes
  | .repeated part count =>
    (part.value? buffers).map fun bytes => (List.replicate count bytes).flatten
  | .sequence start step count =>
    some ((List.range count).map fun i => UInt8.ofNat (start + i * step))
  | .concat parts => Operand.values? buffers parts
  | .slice whole start stop => do
    let bytes ← whole.value? buffers
    if start ≤ stop ∧ stop ≤ bytes.length then some ((bytes.take stop).drop start) else none
  | .altered whole place mask => do
    let bytes ← whole.value? buffers
    if place < bytes.length then some (bytes.modify place (· ^^^ UInt8.ofNat mask)) else none
  | .buffer name => buffers.lookup name

def Operand.values? (buffers : Buffers) : List Operand → Option Bytes
  | [] => some []
  | part :: parts => do
    let bytes ← part.value? buffers
    let more ← Operand.values? buffers parts
    some (bytes ++ more)

end

end EncryptThenMac.Session
