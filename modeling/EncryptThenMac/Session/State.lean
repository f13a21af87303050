import EncryptThenMac.Session.Command

/-!
# Sessions

A session holds keys in use in named slots, byte strings under names, and a source of random
bytes. `State.step` carries out one command. What it answers is the library's answer: a session
adds names, and nothing else.

A command that fails leaves slots and byte strings as they were, and so does one that is
refused; of the source, a request that failed has been made. Only what a command produces is
stored, and only after it has been produced.
-/

namespace EncryptThenMac.Session

structure State where
  -- Keys in use under names. The first entry with a name counts.
  slots : List (String × Sealer)
  buffers : Buffers
  source : RandomSource

namespace State

def start (source : RandomSource) : State :=
  ⟨[], [], source⟩

def put {α : Type} (name : String) (a : α) (named : List (String × α)) : List (String × α) :=
  (name, a) :: named.filter fun entry => entry.1 != name

def remove {α : Type} (name : String) (named : List (String × α)) : List (String × α) :=
  named.filter fun entry => entry.1 != name

@[simp] theorem lookup_put {α : Type} (name : String) (a : α) (named : List (String × α)) :
    (put name a named).lookup name = some a := by
  rw [put, List.lookup_cons_self]

/-! ## What a command speaks of -/

variable (state : State)

def value (operand : Operand) : Except Refusal Bytes :=
  match operand.value? state.buffers with
  | some bytes => .ok bytes
  | none => .error .notAllowed

def vector (operand : Operand) : Except Refusal Block := do
  let bytes ← state.value operand
  if h : bytes.length = Block.size then .ok (.ofBytes bytes h) else .error .notAllowed

/-- The key that a command uses, with the event of taking it into use where it is taken into use
for the command. -/
def sealer : Holder → Except Refusal (Traced Sealer)
  | .slot name =>
    match state.slots.lookup name with
    | some sealer => .ok (.done sealer)
    | none => .error .notAllowed
  | .key key => do
    let key ← state.value key
    return Sealer.ofKey key

def directory : Place → Except Refusal Directory
  | .nothing => .ok .absent
  | .empty => .ok (.present [])
  | .directory name => .ok (.present [(name, .directory)])
  | .file name content => do
    let content ← state.value content
    return .present [(name, .file content)]

/-! ## Computations -/

def produce : Production → Except Refusal (Traced Bytes)
  | .given data => do
    let data ← state.value data
    return .done data
  | .pad data => do
    let data ← state.value data
    return .done (Padding.pad data)
  | .unpad data => do
    let data ← state.value data
    return .quiet (Padding.unpad data)
  | .encryptBlocks cipherKey iv data => do
    let cipherKey ← state.value cipherKey
    let iv ← state.vector iv
    let data ← state.value data
    match Aes.Key.ofHalf cipherKey with
    | .error error => return .quiet (.error error)
    | .ok key =>
      if data.length = 0 ∨ data.length % Block.size ≠ 0 then .error .outOfContract
      else return .done (Cbc.encrypt key iv data)
  | .decryptBlocks cipherKey iv data => do
    let cipherKey ← state.value cipherKey
    let iv ← state.vector iv
    let data ← state.value data
    return .quiet (do
      let key ← Aes.Key.ofHalf cipherKey
      Cbc.decrypt key iv data)
  | .tag variant macKey aad iv ciphertext => do
    let macKey ← state.value macKey
    let aad ← state.value aad
    let iv ← state.value iv
    let ciphertext ← state.value ciphertext
    return .quiet (Tag.compute variant macKey aad iv ciphertext)
  | .envelope holder iv plaintext aad => do
    let sealer ← state.sealer holder
    let iv ← state.vector iv
    let plaintext ← state.value plaintext
    let aad ← state.value aad
    return sealer.andThen fun sealer => .quiet (sealer.sealBytes iv plaintext aad)
  | .plaintext holder envelope aad => do
    let sealer ← state.sealer holder
    let envelope ← state.value envelope
    let aad ← state.value aad
    return sealer.andThen fun sealer => sealer.openBytes envelope aad

def tryEncrypt (sealer : Sealer) (plaintext aad : Bytes) (source : RandomSource) :
    Traced Trial × RandomSource :=
  let (first, source) := sealer.encrypt plaintext aad source
  let (second, source) := sealer.encrypt plaintext aad source
  let trial : Traced Trial := do
    let first ← first
    let second ← second
    let opened₁ ← sealer.openBytes first aad
    let opened₂ ← sealer.openBytes second aad
    let again ← match Block.take? first with
      | some (iv, _) => .quiet ((sealer.sealBytes iv plaintext aad).map some)
      | none => .done none
    return {
      length := first.length
      expectedLength := sealer.sealedLength plaintext.length
      vectorsDiffer := first.take Block.size != second.take Block.size
      reproducible := again == some first
      opened := [opened₁, opened₂] }
  (trial, source)

def tryKeys (variant : Variant) (source : RandomSource) : Except Error Keys × RandomSource :=
  let (first, source) := variant.generateKey source
  let (second, source) := variant.generateKey source
  let keys : Except Error Keys := do
    let first ← first
    let second ← second
    return ⟨first.length, first != second⟩
  (keys, source)

/-- The number, if 64 bits hold it. -/
def bounded (number : Nat) : Except Refusal Reply :=
  if number < UInt64.size then .ok (.number number) else .error .outOfContract

/-! ## Commands -/

def answer : Query → Except Refusal (Traced Reply)
  | .describe holder => do
    let sealer ← state.sealer holder
    return sealer.andThen fun sealer => .done (.sealer (.of sealer))
  | .overhead holder length => do
    let sealer ← state.sealer holder
    return sealer.andThen fun sealer => .done (.number (sealer.overhead length))
  | .sealedLength holder length => do
    let sealer ← state.sealer holder
    match sealer.outcome with
    | .error error => return ⟨sealer.log, .error error⟩
    | .ok key => do
      let reply ← bounded (key.sealedLength length)
      return ⟨sealer.log, .ok reply⟩
  | .halves key => do
    let key ← state.value key
    return .quiet ((CombinedKey.ofBytes key).map Reply.halves)
  | .verify variant macKey aad iv ciphertext tag => do
    let macKey ← state.value macKey
    let aad ← state.value aad
    let iv ← state.value iv
    let ciphertext ← state.value ciphertext
    let tag ← state.value tag
    return .quiet ((Tag.verify variant macKey aad iv ciphertext tag).map Reply.verdict)
  | .constants => return .done (.constants Block.size Block.size Variant.all)
  | .variant variant => return .done (.variant variant)
  | .variantOfSize bytes => return .quiet ((Variant.ofKeySize bytes).map Reply.variant)
  | .variantOfName name => return .quiet ((Variant.ofName name).map Reply.variant)
  | .template template => return .done (.template template)
  | .templateOfText text => return .quiet ((Template.ofText text).map Reply.template)
  | .templateIn path place => do
    let directory ← state.directory place
    return .quiet ((Template.load path directory).map Reply.template)
  | .explain error => return .done (.explanation error)

/-- The answer to a command, and the session after it. -/
def step : Command → Except Refusal (Traced Reply) × State
  | .ask query => (state.answer query, state)
  | .produce production into =>
    match state.produce production with
    | .error refusal => (.error refusal, state)
    | .ok produced =>
      let reply := produced.andThen fun bytes => .done (.bytes bytes)
      match into, produced.outcome with
      | some name, .ok bytes => (.ok reply, { state with buffers := put name bytes state.buffers })
      | _, _ => (.ok reply, state)
  | .install slot key =>
    match state.sealer (.key key) with
    | .error refusal => (.error refusal, state)
    | .ok taken =>
      let reply := taken.andThen fun sealer => .done (.sealer (.of sealer))
      match taken.outcome with
      | .ok sealer => (.ok reply, { state with slots := put slot sealer state.slots })
      | .error _ => (.ok reply, state)
  | .copy slot source =>
    match state.slots.lookup source with
    | none => (.error .notAllowed, state)
    | some sealer =>
      (.ok (.done (.sealer (.of sealer))), { state with slots := put slot sealer state.slots })
  | .drop slot =>
    (.ok (.done (.dropped (state.slots.lookup slot).isSome)),
      { state with slots := remove slot state.slots })
  | .encrypt holder plaintext aad =>
    let operands : Except Refusal (Traced Sealer × Bytes × Bytes) := do
      let sealer ← state.sealer holder
      let plaintext ← state.value plaintext
      let aad ← state.value aad
      return (sealer, plaintext, aad)
    match operands with
    | .error refusal => (.error refusal, state)
    | .ok (taken, plaintext, aad) =>
      match taken.outcome with
      | .error error => (.ok ⟨taken.log, .error error⟩, state)
      | .ok sealer =>
        let (trial, source) := tryEncrypt sealer plaintext aad state.source
        (.ok (taken.andThen fun _ => trial.andThen fun trial => .done (.trial trial)),
          { state with source })
  | .generateKeys variant =>
    let (keys, source) := tryKeys variant state.source
    (.ok (.quiet (keys.map Reply.keys)), { state with source })
  | .tryTemplate template plaintext aad =>
    let operands : Except Refusal (Bytes × Bytes) := do
      let plaintext ← state.value plaintext
      let aad ← state.value aad
      return (plaintext, aad)
    match operands with
    | .error refusal => (.error refusal, state)
    | .ok (plaintext, aad) =>
      let (keys, source) := tryKeys template.variant state.source
      match keys with
      | .error error => (.ok (.quiet (.error error)), { state with source })
      | .ok keys =>
        let (taken, source) := template.newSealer source
        match taken.outcome with
        | .error error => (.ok ⟨taken.log, .error error⟩, { state with source })
        | .ok sealer =>
          let (trial, source) := tryEncrypt sealer plaintext aad source
          (.ok (taken.andThen fun _ => trial.andThen fun trial =>
              .done (.templateTrial keys (.of sealer) trial)),
            { state with source })

def run : State → List Command → List (Except Refusal (Traced Reply)) × State
  | state, [] => ([], state)
  | state, command :: commands =>
    let (reply, state) := state.step command
    let (replies, state) := run state commands
    (reply :: replies, state)

end State

end EncryptThenMac.Session
