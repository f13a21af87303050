import EncryptThenMac.Template.Fault

/-!
# Errors

Every operation that can fail gives one of these causes. The wording of each is in
`Error.message`, and nowhere else, so that two failures are indistinguishable to a reader of
messages exactly if the causes are.

One cause is deliberately poor. `decryptionFailed` says nothing of why: a wrong tag and a wrong
padding are one and the same value here, so it is the type, and not the care of a caller, that
keeps the two from being told apart.

A few causes can also be made outside this library, from a text that somebody else worded
(`described`).
-/

namespace EncryptThenMac

/-- Why a byte string cannot be an envelope, whatever the key. -/
inductive Malformation where
  | tooShort
  | notWholeBlocks
  -- Another reason, in words that came with it.
  | described (reason : String)
deriving DecidableEq

def Malformation.reason : Malformation → String
  | tooShort => "ciphertext too short"
  | notWholeBlocks => "ciphertext is not a positive multiple of the block size"
  | described reason => reason

inductive FileFault where
  | isDirectory
  -- Its bytes are not the UTF-8 encoding of any text.
  | notUtf8
  | described (reason : String)
deriving DecidableEq

def FileFault.reason : FileFault → String
  | isDirectory => "Is a directory (os error 21)"
  | notUtf8 => "stream did not contain valid UTF-8"
  | described reason => reason

/-- Why an operation failed. -/
inductive Error where
  | invalidKeySize (bytes : Nat)
  | malformedCiphertext (reason : Malformation)
  -- An envelope was not made with this key and these associated data.
  | decryptionFailed
  | randomSourceFailure (reason : String)
  | unknownAlgorithm (name : String)
  | config (fault : Template.Fault)
  | file (fault : FileFault)
deriving DecidableEq

namespace Error

def message : Error → String
  | invalidKeySize bytes =>
    "aes_cbc_hmac: invalid AES CBC key size; want 32, 48 or 64, got " ++ toString bytes
  | malformedCiphertext reason => "aes_cbc_hmac: " ++ reason.reason
  | decryptionFailed => "aes_cbc_hmac: failed to decrypt"
  | randomSourceFailure reason => "aes_cbc_hmac: random source failure: " ++ reason
  | unknownAlgorithm name =>
    "Unknown algorithm '" ++ name ++ "' (want A128CBC-HS256, A192CBC-HS384 or A256CBC-HS512)"
  | config fault => "Config file error: " ++ fault.reason
  | file fault => "IO error: " ++ fault.reason

/-- The words of the error underneath, if there is one. -/
def source : Error → Option String
  | file fault => some fault.reason
  | _ => none

end Error

end EncryptThenMac
