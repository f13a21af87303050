import EncryptThenMac.Session.Operand
import EncryptThenMac.Template.Directory
import EncryptThenMac.Variant.Choice

/-!
# What a session can be asked

A session is asked one `Command` at a time. A `Query` is a command that changes nothing. The
others may change what the session holds: they store a byte string under a name, put a key in
use into a slot, copy or empty a slot, or draw random bytes. A command that needs a key in use
takes the one in a slot, or a key that is taken into use for this one command; that is a
`Holder`.

The answer is a `Reply`. Of a key in use a reply tells only what may be known (`Description`).
-/

namespace EncryptThenMac.Session

/-! ## Commands -/

/-- Which key is used. -/
inductive Holder where
  | slot (name : String)
  -- One that is taken into use for this command only.
  | key (key : Operand)

/-- A computation that gives a byte string. -/
inductive Production where
  | given (data : Operand)
  | pad (data : Operand)
  | unpad (data : Operand)
  | encryptBlocks (cipherKey iv data : Operand)
  | decryptBlocks (cipherKey iv data : Operand)
  | tag (variant : Variant) (macKey aad iv ciphertext : Operand)
  | envelope (holder : Holder) (iv plaintext aad : Operand)
  | plaintext (holder : Holder) (envelope aad : Operand)

/-- What is found where a template is looked for. -/
inductive Place where
  | nothing
  | empty
  | directory (name : String)
  | file (name : String) (content : Operand)

/-- A question, which changes nothing. -/
inductive Query where
  | describe (holder : Holder)
  | overhead (holder : Holder) (length : Nat)
  | sealedLength (holder : Holder) (length : Nat)
  | halves (key : Operand)
  | verify (variant : Variant) (macKey aad iv ciphertext tag : Operand)
  | constants
  | variant (variant : Variant)
  | variantOfSize (bytes : Nat)
  | variantOfName (name : String)
  | template (template : Template)
  | templateOfText (text : String)
  | templateIn (path : String) (place : Place)
  | explain (error : Error)

inductive Command where
  | ask (query : Query)
  -- Computes a byte string and, if there is a name, stores it.
  | produce (production : Production) (into : Option String)
  | install (slot : String) (key : Operand)
  | copy (slot source : String)
  | drop (slot : String)
  | encrypt (holder : Holder) (plaintext aad : Operand)
  | generateKeys (variant : Variant)
  -- Makes two keys for a template, takes a third into use and seals with it.
  | tryTemplate (template : Template) (plaintext aad : Operand)

/-! ## Replies -/

/-- What may be known of a key in use. -/
structure Description where
  variant : Variant
  keySize : Nat
  tagSize : Nat
  redacted : Redacted
deriving DecidableEq

def Description.of (sealer : Sealer) : Description :=
  ⟨sealer.variant, sealer.keySize, sealer.tagSize, sealer.redacted⟩

/-- What came of sealing twice under random vectors. -/
structure Trial where
  length : Nat
  expectedLength : Nat
  vectorsDiffer : Bool
  -- Whether sealing under the vector of the first envelope gives that envelope.
  reproducible : Bool
  opened : List Bytes
deriving DecidableEq

structure Keys where
  length : Nat
  differ : Bool
deriving DecidableEq

inductive Reply where
  | bytes (bytes : Bytes)
  | sealer (description : Description)
  | dropped (wasFilled : Bool)
  | number (number : Nat)
  | halves (key : CombinedKey)
  | verdict (valid : Bool)
  | trial (trial : Trial)
  | keys (keys : Keys)
  | templateTrial (keys : Keys) (description : Description) (trial : Trial)
  | constants (blockSize ivSize : Nat) (variants : List Variant)
  | variant (variant : Variant)
  | template (template : Template)
  | explanation (error : Error)

inductive Refusal where
  -- It speaks of something that is not there, or of a byte string of a wrong size.
  | notAllowed
  -- It breaks what the computation expects of its callers.
  | outOfContract
deriving DecidableEq

end EncryptThenMac.Session
