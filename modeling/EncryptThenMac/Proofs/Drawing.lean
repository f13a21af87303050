import EncryptThenMac.Proofs.KeyInUse
import EncryptThenMac.Proofs.Canonical
import EncryptThenMac.Proofs.Sealing
import EncryptThenMac.Session.State

/-!
# Drawing vectors and keys

What is drawn is not looked at. Sealing under a drawn vector is sealing under that vector, a
drawn key is the bytes that were drawn, and each of the two is one request to the source, so
all that can be said of them is said for an arbitrary source at an arbitrary point of its
sequence.

Two things need an argument. A drawn key is never refused: it has the size that the variant
asks for, and the variant found for that size is the same (`newSealer_of_drawn`). And two
envelopes sealed under drawn vectors are equal only if the same vector was drawn for the same
plaintext (`eq_of_encrypt_eq`), because the front of an envelope shows both; nothing is said of
the tags, so this asks nothing of the code.

When there is nothing to draw, the reason is reported and nothing else happens.
-/

namespace EncryptThenMac

/-! ## One request -/

namespace RandomSource

variable {source : RandomSource}

theorem draw_of_drawn {size : Nat} {drawn : { bytes : Bytes // bytes.length = size }}
    (h : source.outcome source.requests size = .ok drawn) : source.draw size = .ok drawn := by
  rw [draw, h]

theorem draw_of_failed {size : Nat} {reason : String}
    (h : source.outcome source.requests size = .error reason) :
    source.draw size = .error (.randomSourceFailure reason) := by
  rw [draw, h]

theorem drawBlock_of_drawn {drawn : { bytes : Bytes // bytes.length = Block.size }}
    (h : source.outcome source.requests Block.size = .ok drawn) :
    source.drawBlock = .ok (.ofBytes drawn.1 drawn.2) := by
  rw [drawBlock, draw_of_drawn h]
  rfl

theorem drawBlock_of_failed {reason : String}
    (h : source.outcome source.requests Block.size = .error reason) :
    source.drawBlock = .error (.randomSourceFailure reason) := by
  rw [drawBlock, draw_of_failed h]
  rfl

/-- A block is drawn only as the bytes that the source gave. -/
theorem drawn_of_drawBlock {iv : Block} (h : source.drawBlock = .ok iv) :
    ∃ drawn, source.outcome source.requests Block.size = .ok drawn ∧ drawn.1 = iv.toBytes := by
  cases houtcome : source.outcome source.requests Block.size with
  | error reason =>
    rw [drawBlock_of_failed houtcome] at h
    exact absurd h (by simp)
  | ok drawn =>
    rw [drawBlock_of_drawn houtcome] at h
    cases h
    exact ⟨drawn, rfl, (Block.toBytes_ofBytes drawn.1 drawn.2).symm⟩

end RandomSource

/-! ## Sealing under a drawn vector -/

namespace Sealer

variable {sealer : Sealer} {source : RandomSource}

theorem encrypt_of_drawBlock {iv : Block} (h : source.drawBlock = .ok iv) (plaintext aad : Bytes) :
    sealer.encrypt plaintext aad source = (sealer.sealBytes iv plaintext aad, source.next) := by
  rw [encrypt, h]
  rfl

theorem encrypt_of_failed {reason : String}
    (h : source.outcome source.requests Block.size = .error reason) (plaintext aad : Bytes) :
    sealer.encrypt plaintext aad source = (.error (.randomSourceFailure reason), source.next) := by
  rw [encrypt, RandomSource.drawBlock_of_failed h]
  rfl

theorem sealBytes_of_encrypt {plaintext aad bytes : Bytes}
    (h : (sealer.encrypt plaintext aad source).1 = .ok bytes) :
    ∃ iv, source.drawBlock = .ok iv ∧ sealer.sealBytes iv plaintext aad = .ok bytes := by
  cases hblock : source.drawBlock with
  | error error =>
    rw [encrypt, hblock] at h
    exact absurd h (by simp [Except.bind])
  | ok iv =>
    rw [encrypt_of_drawBlock hblock] at h
    exact ⟨iv, rfl, h⟩

/-- Where there is a vector, there is an envelope of the announced length, and it opens. -/
theorem exists_encrypt (sealer : Sealer) {drawn : { bytes : Bytes // bytes.length = Block.size }}
    (h : source.outcome source.requests Block.size = .ok drawn) (plaintext aad : Bytes) :
    ∃ (iv : Block) (bytes : Bytes), iv.toBytes = drawn.1 ∧
      sealer.encrypt plaintext aad source = (.ok bytes, source.next) ∧
      sealer.sealBytes iv plaintext aad = .ok bytes ∧
      bytes.length = sealer.sealedLength plaintext.length ∧
      sealer.openBytes bytes aad = .done plaintext := by
  have hblock := RandomSource.drawBlock_of_drawn h
  obtain ⟨tag, _, hseal⟩ := exists_sealBytes sealer (.ofBytes drawn.1 drawn.2) plaintext aad
  refine ⟨_, _, Block.toBytes_ofBytes drawn.1 drawn.2, ?_, hseal, length_of_sealBytes hseal,
    openBytes_sealBytes hseal⟩
  rw [encrypt_of_drawBlock hblock, hseal]

/-- Envelopes under drawn vectors are told apart by what was drawn and by what was sealed,
wherever in the sequence of a source, or of two, they were made. -/
theorem eq_of_encrypt_eq {source' : RandomSource} {plaintext plaintext' aad aad' bytes : Bytes}
    (h : (sealer.encrypt plaintext aad source).1 = .ok bytes)
    (h' : (sealer.encrypt plaintext' aad' source').1 = .ok bytes) :
    ∃ drawn, source.outcome source.requests Block.size = .ok drawn ∧
      source'.outcome source'.requests Block.size = .ok drawn ∧ plaintext = plaintext' := by
  obtain ⟨iv, hiv, hseal⟩ := sealBytes_of_encrypt h
  obtain ⟨iv', hiv', hseal'⟩ := sealBytes_of_encrypt h'
  obtain ⟨rfl, hplaintext⟩ :=
    front_injective ((take_of_sealBytes hseal).symm.trans (take_of_sealBytes hseal'))
  obtain ⟨drawn, hdrawn, hbytes⟩ := RandomSource.drawn_of_drawBlock hiv
  obtain ⟨drawn', hdrawn', hbytes'⟩ := RandomSource.drawn_of_drawBlock hiv'
  obtain rfl : drawn = drawn' := Subtype.ext (hbytes.trans hbytes'.symm)
  exact ⟨drawn, hdrawn, hdrawn', hplaintext⟩

end Sealer

/-! ## Drawn keys -/

section Keys

variable {variant : Variant} {source : RandomSource}

theorem Variant.generateKey_of_drawn {drawn : { bytes : Bytes // bytes.length = variant.keySize }}
    (h : source.outcome source.requests variant.keySize = .ok drawn) :
    variant.generateKey source = (.ok drawn.1, source.next) := by
  rw [generateKey, RandomSource.draw_of_drawn h]
  rfl

theorem Variant.generateKey_of_failed {reason : String}
    (h : source.outcome source.requests variant.keySize = .error reason) :
    variant.generateKey source = (.error (.randomSourceFailure reason), source.next) := by
  rw [generateKey, RandomSource.draw_of_failed h]
  rfl

theorem Template.newSealer_eq (template : Template) (source : RandomSource) :
    template.newSealer source =
      (Traced.andThen (.quiet (template.newKey source).1) Sealer.ofKey,
        (template.newKey source).2) := rfl

/-- A drawn key is taken into use like the same key from elsewhere, and for the variant that it
was drawn for. -/
theorem Template.newSealer_of_drawn {drawn : { bytes : Bytes // bytes.length = variant.keySize }}
    (h : source.outcome source.requests variant.keySize = .ok drawn) :
    ∃ sealer : Sealer, sealer.variant = variant ∧
      Sealer.ofKey drawn.1 = ⟨[.initialized variant], .ok sealer⟩ ∧
      (Template.mk variant).newSealer source =
        (⟨[.initialized variant], .ok sealer⟩, source.next) := by
  have hkey := Sealer.ofKey_of_length drawn.2
  refine ⟨_, rfl, hkey, ?_⟩
  rw [newSealer_eq, newKey, Variant.generateKey_of_drawn h, Traced.andThen_quiet_ok, hkey]

theorem Template.newSealer_of_failed {reason : String}
    (h : source.outcome source.requests variant.keySize = .error reason) :
    (Template.mk variant).newSealer source =
      (⟨[], .error (.randomSourceFailure reason)⟩, source.next) := by
  rw [newSealer_eq, newKey, Variant.generateKey_of_failed h, Traced.andThen_quiet_error]
  rfl

end Keys

/-! ## Copies -/

/-- A copy in a session is the key in use itself. -/
theorem Session.State.lookup_copy {state : Session.State} {sealer : Sealer} {slot original : String}
    (h : state.slots.lookup original = some sealer) :
    (state.step (.copy slot original)).2.slots.lookup slot = some sealer := by
  rw [step, h]
  exact lookup_put slot sealer state.slots

/-! ## All that draws -/

namespace RandomSource

/-- **Whatever is drawn, what is made of it is right.** For a source at any point of its
sequence: an envelope under a drawn vector is the one under that vector, has the announced
length, and opens under the key in use, under its copies and under the same key taken into use
again; two envelopes under one key are equal only if the drawn vectors and the plaintexts are; a
new key is what was drawn, and is taken into use for its variant with the one event for that;
and a failed request fails the operation with its reason, without an event. -/
theorem drawing_is_sound (source : RandomSource) :
    (∀ key sealer, (Sealer.ofKey key).outcome = .ok sealer → ∀ plaintext aad drawn,
      source.outcome source.requests Block.size = .ok drawn →
      ∃ iv bytes, iv.toBytes = drawn.1 ∧
        sealer.encrypt plaintext aad source = (.ok bytes, source.next) ∧
        sealer.sealBytes iv plaintext aad = .ok bytes ∧
        bytes.length = sealer.sealedLength plaintext.length ∧
        sealer.openBytes bytes aad = .done plaintext ∧
        (∀ (state : Session.State) slot original, state.slots.lookup original = some sealer →
          ∃ copy, (state.step (.copy slot original)).2.slots.lookup slot = some copy ∧
            copy.openBytes bytes aad = .done plaintext) ∧
        (∀ again, (Sealer.ofKey key).outcome = .ok again →
          again.openBytes bytes aad = .done plaintext)) ∧
    (∀ (sealer : Sealer) (later : RandomSource) plaintext plaintext' aad aad' bytes,
      (sealer.encrypt plaintext aad source).1 = .ok bytes →
      (sealer.encrypt plaintext' aad' later).1 = .ok bytes →
      ∃ drawn, source.outcome source.requests Block.size = .ok drawn ∧
        later.outcome later.requests Block.size = .ok drawn ∧ plaintext = plaintext') ∧
    (∀ (variant : Variant) drawn, source.outcome source.requests variant.keySize = .ok drawn →
      variant.generateKey source = (.ok drawn.1, source.next) ∧
      (Template.mk variant).newKey source = (.ok drawn.1, source.next) ∧
      ∃ sealer : Sealer, sealer.variant = variant ∧
        (Sealer.ofKey drawn.1).outcome = .ok sealer ∧
        (Template.mk variant).newSealer source =
          (⟨[.initialized variant], .ok sealer⟩, source.next) ∧
        (Event.initialized variant).line =
          "DEBUG initialized aes-cbc-hmac algorithm=" ++ variant.name) ∧
    (∀ reason, source.outcome source.requests Block.size = .error reason →
      ∀ (sealer : Sealer) plaintext aad,
        sealer.encrypt plaintext aad source = (.error (.randomSourceFailure reason), source.next)) ∧
    (∀ (variant : Variant) reason, source.outcome source.requests variant.keySize = .error reason →
      variant.generateKey source = (.error (.randomSourceFailure reason), source.next) ∧
      (Template.mk variant).newKey source = (.error (.randomSourceFailure reason), source.next) ∧
      (Template.mk variant).newSealer source =
        (⟨[], .error (.randomSourceFailure reason)⟩, source.next)) := by
  refine ⟨?_, ?_, ?_, ?_, ?_⟩
  · intro key sealer hkey plaintext aad drawn hdrawn
    obtain ⟨iv, bytes, hiv, hencrypt, hseal, hlen, hopen⟩ :=
      Sealer.exists_encrypt sealer hdrawn plaintext aad
    refine ⟨iv, bytes, hiv, hencrypt, hseal, hlen, hopen, ?_, ?_⟩
    · intro state slot original horiginal
      exact ⟨sealer, Session.State.lookup_copy horiginal, hopen⟩
    · intro again hagain
      obtain rfl := Except.ok.inj (hkey.symm.trans hagain)
      exact hopen
  · intro sealer later plaintext plaintext' aad aad' bytes h h'
    exact Sealer.eq_of_encrypt_eq h h'
  · intro variant drawn hdrawn
    obtain ⟨sealer, hvariant, hkey, hnew⟩ := Template.newSealer_of_drawn hdrawn
    have hgenerated := Variant.generateKey_of_drawn hdrawn
    exact ⟨hgenerated, hgenerated, sealer, hvariant, congrArg Traced.outcome hkey, hnew, rfl⟩
  · intro reason hfailed sealer plaintext aad
    exact Sealer.encrypt_of_failed hfailed plaintext aad
  · intro variant reason hfailed
    have hgenerated := Variant.generateKey_of_failed hfailed
    exact ⟨hgenerated, hgenerated, Template.newSealer_of_failed hfailed⟩

/-- A source that answers its first request, and then has nothing more. -/
def once : RandomSource where
  outcome request size :=
    if request = 0 then .ok ⟨List.replicate size 7, List.length_replicate⟩
    else .error "exhausted"
  requests := 0

/-- Three bytes are sealed under what there is, and then no key can be drawn. -/
theorem drawing_is_sound_once :
    (∃ sealer bytes, (Sealer.ofKey (List.replicate 48 1)).outcome = .ok sealer ∧
      sealer.encrypt [1, 2, 3] [4] once = (.ok bytes, once.next) ∧
      sealer.openBytes bytes [4] = .done [1, 2, 3]) ∧
    Variant.a192cbcHs384.generateKey once.next =
      (.error (.randomSourceFailure "exhausted"), once.next.next) := by
  have hkey : (List.replicate 48 (1 : UInt8)).length = Variant.a192cbcHs384.keySize := rfl
  have htaken := congrArg Traced.outcome (Sealer.ofKey_of_length hkey)
  constructor
  · obtain ⟨_, bytes, _, hencrypt, _, _, hopen, _⟩ :=
      (drawing_is_sound once).1 _ _ htaken [1, 2, 3] [4] _ rfl
    exact ⟨_, bytes, htaken, hencrypt, hopen⟩
  · obtain ⟨_, _, _, _, hfailed⟩ := drawing_is_sound once.next
    exact (hfailed .a192cbcHs384 "exhausted" rfl).1

end RandomSource

end EncryptThenMac
