import EncryptThenMac.Error

/-!
# Results with a log

A few moments are worth a line in a log: a key taken into use, and each way in which an envelope
is refused. `Event` lists them, `Event.line` words them. An operation that may log gives a
`Traced` result: an outcome together with the events on the way to it, in order. A failing
operation keeps the events that led to the failure.
-/

namespace EncryptThenMac

/-- A moment worth a line in the log. -/
inductive Event where
  | initialized (variant : Variant)
  | rejectedShort (bytes : Nat)
  | rejectedUnaligned (bytes : Nat)
  -- An envelope was refused for its tag or its padding.
  | decryptionFailed
deriving DecidableEq

/-- The line of the log: the level, the message, and the fields. -/
def Event.line : Event → String
  | initialized variant => "DEBUG initialized aes-cbc-hmac algorithm=" ++ toString variant
  | rejectedShort bytes => "DEBUG rejected short ciphertext len=" ++ toString bytes
  | rejectedUnaligned bytes => "DEBUG rejected unaligned ciphertext len=" ++ toString bytes
  | decryptionFailed => "DEBUG decryption failed"

/-- An outcome and the events on the way to it. -/
structure Traced (α : Type) where
  log : List Event
  outcome : Except Error α

namespace Traced

variable {α β : Type}

def done (a : α) : Traced α :=
  ⟨[], .ok a⟩

def refuse (event : Event) (error : Error) : Traced α :=
  ⟨[event], .error error⟩

def quiet (outcome : Except Error α) : Traced α :=
  ⟨[], outcome⟩

def note (event : Event) : Traced Unit :=
  ⟨[event], .ok ()⟩

/-- One operation after another. The second is not reached if the first fails. -/
def andThen (first : Traced α) (second : α → Traced β) : Traced β :=
  match first.outcome with
  | .error error => ⟨first.log, .error error⟩
  | .ok a => ⟨first.log ++ (second a).log, (second a).outcome⟩

@[simp] theorem andThen_quiet_ok (a : α) (second : α → Traced β) :
    (quiet (.ok a)).andThen second = second a := rfl

@[simp] theorem andThen_quiet_error (error : Error) (second : α → Traced β) :
    (quiet (.error error)).andThen second = quiet (.error error) := rfl

instance : Monad Traced where
  pure := done
  bind := andThen

instance : MonadLift (Except Error) Traced where
  monadLift := quiet

end Traced

end EncryptThenMac
