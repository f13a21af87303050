import EncryptThenMac.Proofs.Drawing
import EncryptThenMac.Proofs.Steps
import EncryptThenMac.Proofs.WholeBlocks

/-!
# Where the key in a slot comes from

What is in a slot was put there by taking a key into use, or by copying another slot, and that
one was filled in the same two ways. `rootKey?` follows the copies back to the key that was
taken into use. It reads nothing but what was asked of the session and whether it succeeded, the
latest first, and from a copy on it reads only what lies before the copy. Whatever becomes of the
slot that was copied is therefore out of its sight.

The invariant is `Accounted`: a slot is filled exactly if there is a key at its root, and then it
holds what taking that key into use gives. A step preserves it (`accounted_step`), one case for
each `Effect`, and so does a run.

All else that is said of a slot follows from this and from the key alone, and is collected in
`Serves`.
-/

namespace EncryptThenMac

/-- The outcome of taking a key into use tells the event. -/
theorem Sealer.ofKey_eq_after {key : Bytes} {sealer : Sealer}
    (h : (ofKey key).outcome = .ok sealer) :
    ofKey key = (Traced.done sealer).after (.initialized sealer.variant) := by
  obtain ⟨variant, hlen⟩ := exists_length_of_ofKey h
  rw [ofKey_of_length hlen] at h ⊢
  obtain rfl := Except.ok.inj h
  rfl

namespace Session

/-! ## What was done to the slots -/

/-- What a command has done to a slot. -/
inductive Deed where
  | installed (slot : String) (key : Bytes)
  | copied (slot source : String)
  | dropped (slot : String)

/-- The key at the root of a slot. The latest deed comes first. -/
def rootKey? : List Deed → String → Option Bytes
  | [], _ => none
  | .installed target key :: earlier, slot =>
    if slot = target then some key else rootKey? earlier slot
  | .copied target source :: earlier, slot =>
    rootKey? earlier (if slot = target then source else slot)
  | .dropped target :: earlier, slot =>
    if slot = target then none else rootKey? earlier slot

/-- What a command does to a slot, if it succeeds. -/
def Command.deed? (buffers : Buffers) : Command → Option Deed
  | .install slot key => (key.value? buffers).map (.installed slot)
  | .copy slot source => some (.copied slot source)
  | .drop slot => some (.dropped slot)
  | _ => none

theorem Command.deed?_of_target?_eq_none {command : Command} (h : command.target? = none)
    (buffers : Buffers) : command.deed? buffers = none := by
  cases command with
  | install slot key => exact absurd h (by simp [target?])
  | copy slot source => exact absurd h (by simp [target?])
  | drop slot => exact absurd h (by simp [target?])
  | ask query => rfl
  | produce production into => rfl
  | encrypt holder plaintext aad => rfl
  | generateKeys variant => rfl
  | tryTemplate template plaintext aad => rfl

namespace State

/-- What has been done after one more command. -/
def record (state : State) (past : List Deed) (command : Command) : List Deed :=
  match succeeded (state.step command).1, command.deed? state.buffers with
  | true, some deed => deed :: past
  | _, _ => past

/-- What has been done after some more commands. -/
def history : State → List Deed → List Command → List Deed
  | _, past, [] => past
  | state, past, command :: commands =>
    history (state.step command).2 (state.record past command) commands

variable {state : State} {past : List Deed}

theorem record_of_succeeded {command : Command} {deed : Deed}
    (h : succeeded (state.step command).1 = true)
    (hdeed : command.deed? state.buffers = some deed) : state.record past command = deed :: past := by
  rw [record, h, hdeed]

theorem record_of_failed {command : Command} (h : succeeded (state.step command).1 = false) :
    state.record past command = past := by
  rw [record, h]

theorem record_of_no_target {command : Command} (h : command.target? = none) :
    state.record past command = past := by
  rw [record, Command.deed?_of_target?_eq_none h]
  cases succeeded (state.step command).1 with
  | true => rfl
  | false => rfl

/-! ## The invariant -/

/-- Every slot holds what taking the key at its root into use gives. -/
def Accounted (state : State) (past : List Deed) : Prop :=
  ∀ slot, Option.Rel (fun key sealer => (Sealer.ofKey key).outcome = .ok sealer)
    (rootKey? past slot) (state.slots.lookup slot)

theorem accounted_start (source : RandomSource) : Accounted (start source) [] :=
  fun _ => .none

namespace Accounted

variable {after : State}

theorem of_slots_eq (haccounted : Accounted state past) (h : after.slots = state.slots) :
    Accounted after past := by
  intro slot
  rw [h]
  exact haccounted slot

theorem installed (haccounted : Accounted state past) {target : String} {key : Bytes}
    {sealer : Sealer} (hkey : (Sealer.ofKey key).outcome = .ok sealer)
    (h : after.slots = put target sealer state.slots) :
    Accounted after (.installed target key :: past) := by
  intro slot
  rw [h, lookup_put_ite, rootKey?]
  split
  · exact .some hkey
  · exact haccounted slot

/-- The copy has the root that the source has at this moment. -/
theorem copied (haccounted : Accounted state past) {target source : String} {sealer : Sealer}
    (hsource : state.slots.lookup source = some sealer)
    (h : after.slots = put target sealer state.slots) :
    Accounted after (.copied target source :: past) := by
  intro slot
  rw [h, lookup_put_ite, rootKey?]
  split
  · rw [← hsource]
    exact haccounted source
  · exact haccounted slot

theorem dropped (haccounted : Accounted state past) {target : String}
    (h : after.slots = remove target state.slots) : Accounted after (.dropped target :: past) := by
  intro slot
  rw [h, lookup_remove, rootKey?]
  split
  · exact .none
  · exact haccounted slot

end Accounted

theorem accounted_step (haccounted : Accounted state past) (command : Command) :
    Accounted (state.step command).2 (state.record past command) := by
  rcases hstep : state.step command with ⟨reply, after⟩
  have hreply : (state.step command).1 = reply := congrArg Prod.fst hstep
  -- A deed is recorded exactly where a slot is written.
  cases effect_of_step hstep with
  | installed hsucceeded hvalue hkey =>
    rw [record_of_succeeded (hreply ▸ hsucceeded) (by rw [Command.deed?, hvalue]; rfl)]
    exact haccounted.installed hkey rfl
  | copied hsucceeded hsource =>
    rw [record_of_succeeded (hreply ▸ hsucceeded) rfl]
    exact haccounted.copied hsource rfl
  | dropped hsucceeded =>
    rw [record_of_succeeded (hreply ▸ hsucceeded) rfl]
    exact haccounted.dropped rfl
  | stored _ =>
    rw [record_of_no_target rfl]
    exact haccounted.of_slots_eq rfl
  | nothing hunchanged hwhy =>
    have hrecord : state.record past command = past :=
      hwhy.elim (fun hfailed => record_of_failed (hreply ▸ hfailed)) record_of_no_target
    rw [hrecord]
    exact haccounted.of_slots_eq hunchanged.slots

theorem accounted_run (haccounted : Accounted state past) (commands : List Command) :
    Accounted (state.run commands).2 (state.history past commands) := by
  -- The past grows with every command, so it is left open together with the state.
  induction commands generalizing state past with
  | nil => exact haccounted
  | cons command commands ih =>
    rw [run, history]
    exact ih (accounted_step haccounted command)

/-! ## What a slot is good for -/

/-- All that is promised of a slot with a key in use, in terms of the key at its root. -/
structure Serves (state : State) (slot : String) (key : Bytes) (sealer : Sealer) : Prop where
  -- What is in the slot is what taking the key into use gives, after one event.
  taken : Sealer.ofKey key = (Traced.done sealer).after (.initialized sealer.variant)
  row : (sealer.variant, sealer.macKey.length, sealer.cipher.size) ∈ Variant.rows
  uses : ∀ (use : Use) (operand : Operand), operand.value? state.buffers = some key →
    state.step (use.command (.key operand)) =
      afterEvent (.initialized sealer.variant) (state.step (use.command (.slot slot)))
  seals : ∀ {iv plaintext aad vector text data}, state.vector iv = .ok vector →
    state.value plaintext = .ok text → state.value aad = .ok data →
    ∃ bytes, sealer.sealBytes vector text data = .ok bytes ∧
      state.produce (.envelope (.slot slot) iv plaintext aad) = .ok (.done bytes)

theorem produce_envelope_slot {slot : String} {sealer : Sealer}
    (hslot : state.slots.lookup slot = some sealer) {iv plaintext aad : Operand} {vector : Block}
    {text data : Bytes} (hiv : state.vector iv = .ok vector)
    (hplaintext : state.value plaintext = .ok text) (haad : state.value aad = .ok data) :
    state.produce (.envelope (.slot slot) iv plaintext aad) =
      .ok (.quiet (sealer.sealBytes vector text data)) := by
  simp only [produce, sealer_slot hslot, hiv, hplaintext, haad]
  rfl

theorem serves_of_lookup {slot : String} {key : Bytes} {sealer : Sealer}
    (hslot : state.slots.lookup slot = some sealer) (hkey : (Sealer.ofKey key).outcome = .ok sealer) :
    Serves state slot key sealer where
  taken := Sealer.ofKey_eq_after hkey
  row := Sealer.mem_rows_of_ofKey hkey
  uses use _ hvalue := step_use hslot hvalue (Sealer.ofKey_eq_after hkey) use
  seals := by
    intro iv plaintext aad vector text data hiv hplaintext haad
    obtain ⟨tag, _, hseal⟩ := Sealer.exists_sealBytes sealer vector text data
    refine ⟨_, hseal, ?_⟩
    rw [produce_envelope_slot hslot hiv hplaintext haad, hseal]
    rfl

theorem Accounted.serves (haccounted : Accounted state past) (slot : String) :
    Option.Rel (Serves state slot) (rootKey? past slot) (state.slots.lookup slot) := by
  have hrel := haccounted slot
  generalize rootKey? past slot = root at hrel ⊢
  generalize hlookup : state.slots.lookup slot = held at hrel ⊢
  cases hrel with
  | none => exact .none
  | some hkey => exact .some (serves_of_lookup hlookup hkey)

/-- **A slot stands for the key at its root.** A key is taken into use exactly if it has the size
of a variant, and is otherwise refused with its length and without an event. Sealing under a key
in use does not fail, and encrypts whole blocks. After any commands a slot is filled exactly if
there is a key at its root, and it serves in every respect like that key, which would only leave
the event of being taken into use. A command that fails leaves slots and byte strings alone, and
one that succeeds leaves every slot alone but the one it writes; so a copy outlives what it was
copied from. -/
theorem slots_stand_for_their_keys :
    (∀ key : Bytes,
      ((∃ sealer, (Sealer.ofKey key).outcome = .ok sealer) ↔
        key.length = 32 ∨ key.length = 48 ∨ key.length = 64) ∧
      (¬ (key.length = 32 ∨ key.length = 48 ∨ key.length = 64) →
        Sealer.ofKey key = ⟨[], .error (.invalidKeySize key.length)⟩)) ∧
    (∀ (sealer : Sealer) (iv : Block) (plaintext aad : Bytes),
      WholeBlocks (Padding.pad plaintext) ∧ ∃ tag : Bytes,
        sealer.sealBytes iv plaintext aad =
          .ok (iv.toBytes ++ Cbc.encrypt sealer.cipher iv (Padding.pad plaintext) ++ tag)) ∧
    (∀ (source : RandomSource) (commands : List Command) (slot : String),
      Option.Rel (Serves ((start source).run commands).2 slot)
        (rootKey? ((start source).history [] commands) slot)
        (((start source).run commands).2.slots.lookup slot)) ∧
    (∀ (state : State) (command : Command), succeeded (state.step command).1 = false →
      Unchanged state (state.step command).2) ∧
    (∀ (state : State) (command : Command) (slot : String), command.target? ≠ some slot →
      (state.step command).2.slots.lookup slot = state.slots.lookup slot) := by
  refine ⟨?_, ?_, ?_, ?_, ?_⟩
  · intro key
    exact ⟨Sealer.exists_ofKey_iff, Sealer.ofKey_of_wrong_length⟩
  · intro sealer iv plaintext aad
    obtain ⟨tag, _, hseal⟩ := Sealer.exists_sealBytes sealer iv plaintext aad
    exact ⟨Padding.wholeBlocks_pad plaintext, tag, hseal⟩
  · intro source commands slot
    exact (accounted_run (accounted_start source) commands).serves slot
  · intro state command hfailed
    exact unchanged_of_failed hfailed
  · intro state command slot htarget
    exact lookup_of_other_target htarget

/-- A slot is filled, copied, filled again and emptied, and a key of a wrong size is tried on the
copy. -/
def copying : List Command :=
  [.install "first" (.repeated (.literal [1]) 32), .copy "second" "first",
    .install "first" (.repeated (.literal [2]) 48), .drop "first",
    .install "second" (.repeated (.literal [3]) 33)]

/-- The copy holds the first key, and the slot it was copied from is empty. -/
theorem slots_stand_for_their_keys_copying :
    (∃ sealer,
      ((start .once).run copying).2.slots.lookup "second" = some sealer ∧
      (Sealer.ofKey (List.replicate 32 1)).outcome = .ok sealer) ∧
    ((start .once).run copying).2.slots.lookup "first" = none := by
  have hsecond : rootKey? ((start .once).history [] copying) "second" = some (List.replicate 32 1) :=
    rfl
  have hfirst : rootKey? ((start .once).history [] copying) "first" = none := rfl
  obtain ⟨_, _, hslots, _⟩ := slots_stand_for_their_keys
  constructor
  · have hrel := hslots .once copying "second"
    rw [hsecond] at hrel
    generalize ((start .once).run copying).2.slots.lookup "second" = held at hrel ⊢
    cases hrel with
    | some hserves => exact ⟨_, rfl, congrArg Traced.outcome hserves.taken⟩
  · have hrel := hslots .once copying "first"
    rw [hfirst] at hrel
    generalize ((start .once).run copying).2.slots.lookup "first" = held at hrel ⊢
    cases hrel with
    | none => rfl

end State

end Session

end EncryptThenMac
