import EncryptThenMac.Session.State

/-!
# What a command does

`State.step` has a case for every command, and in most of them several ways to fail. This file
goes through the cases once. What is left of them is `Effect`: a command that succeeds may write
one slot or one byte string, in one of four ways, and in every other case slots and byte strings
are as they were. Later proofs take `Effect` apart and never `step`.

The source of random bytes is not among what a command leaves alone. A request that failed has
been made, and the next one is another.

Most commands do not write but use a key, one that is in a slot or one that is taken into use for
the command. `Use` is a command with the place of the key left open. The two ways to fill it
give the same answer and the same state, and differ in one event, that of taking the key into use
(`step_use`).
-/

namespace EncryptThenMac

namespace Traced

variable {α β : Type} {first : Traced α}

/-- The same, after an event. -/
def after (event : Event) (traced : Traced α) : Traced α :=
  ⟨event :: traced.log, traced.outcome⟩

theorem outcome_andThen_of_ok {a : α} (h : first.outcome = .ok a) (second : α → Traced β) :
    (first.andThen second).outcome = (second a).outcome := by
  rw [andThen, h]

theorem outcome_andThen_of_error {error : Error} (h : first.outcome = .error error)
    (second : α → Traced β) : (first.andThen second).outcome = .error error := by
  rw [andThen, h]

end Traced

namespace Session

/-- The slot that a command writes, if it succeeds. -/
def Command.target? : Command → Option String
  | .install slot _ => some slot
  | .copy slot _ => some slot
  | .drop slot => some slot
  | _ => none

namespace State

variable {state : State}

/-! ## Values under names -/

section Named

variable {α : Type}

theorem lookup_remove (name other : String) (named : List (String × α)) :
    (remove name named).lookup other = if other = name then none else named.lookup other := by
  induction named with
  | nil => rw [remove, List.filter_nil, List.lookup_nil, ite_self]
  | cons entry named ih =>
    obtain ⟨first, a⟩ := entry
    rw [remove] at ih ⊢
    by_cases hfirst : first = name
    · subst hfirst
      rw [List.filter_cons_of_neg (by simp), ih]
      by_cases hother : other = first
      · rw [if_pos hother, if_pos hother]
      · rw [if_neg hother, if_neg hother, List.lookup_cons, beq_eq_false_iff_ne.mpr hother]
    · rw [List.filter_cons_of_pos (by simpa using hfirst), List.lookup_cons, List.lookup_cons, ih]
      by_cases hother : other = first
      · subst hother
        rw [beq_self_eq_true]
        exact (if_neg hfirst).symm
      · rw [beq_eq_false_iff_ne.mpr hother]

theorem lookup_put_ite (name other : String) (a : α) (named : List (String × α)) :
    (put name a named).lookup other = if other = name then some a else named.lookup other := by
  by_cases hother : other = name
  · rw [if_pos hother, hother, lookup_put]
  · have hput : put name a named = (name, a) :: remove name named := rfl
    rw [if_neg hother, hput, List.lookup_cons, beq_eq_false_iff_ne.mpr hother]
    dsimp only
    rw [lookup_remove, if_neg hother]

end Named

/-! ## Success and failure -/

/-- A command has succeeded if it was not refused and its answer is not an error. -/
def succeeded : Except Refusal (Traced Reply) → Bool
  | .ok ⟨_, .ok _⟩ => true
  | _ => false

theorem succeeded_of_ok {traced : Traced Reply} {reply : Reply} (h : traced.outcome = .ok reply) :
    succeeded (.ok traced) = true := by
  obtain ⟨log, outcome⟩ := traced
  subst h
  rfl

theorem succeeded_of_error {traced : Traced Reply} {error : Error}
    (h : traced.outcome = .error error) : succeeded (.ok traced) = false := by
  obtain ⟨log, outcome⟩ := traced
  subst h
  rfl

/-- Slots and byte strings are as they were. -/
structure Unchanged (before after : State) : Prop where
  slots : after.slots = before.slots
  buffers : after.buffers = before.buffers

theorem Unchanged.refl (state : State) : Unchanged state state :=
  ⟨rfl, rfl⟩

/-- What can come of a command: its answer and the state after it. -/
inductive Effect (state : State) : Command → Except Refusal (Traced Reply) → State → Prop where
  | installed {slot operand key sealer reply} : succeeded reply = true →
      operand.value? state.buffers = some key → (Sealer.ofKey key).outcome = .ok sealer →
      Effect state (.install slot operand) reply { state with slots := put slot sealer state.slots }
  | copied {slot source sealer reply} : succeeded reply = true →
      state.slots.lookup source = some sealer →
      Effect state (.copy slot source) reply { state with slots := put slot sealer state.slots }
  | dropped {slot reply} : succeeded reply = true →
      Effect state (.drop slot) reply { state with slots := remove slot state.slots }
  | stored {production name bytes reply} : succeeded reply = true →
      Effect state (.produce production (some name)) reply
        { state with buffers := put name bytes state.buffers }
  -- It failed, or it is not one of those that write.
  | nothing {command reply after} : Unchanged state after →
      (succeeded reply = false ∨ command.target? = none) → Effect state command reply after

/-! ## Operands -/

theorem value_of_some {operand : Operand} {bytes : Bytes}
    (h : operand.value? state.buffers = some bytes) : state.value operand = .ok bytes := by
  rw [value, h]

theorem sealer_slot {slot : String} {sealer : Sealer} (h : state.slots.lookup slot = some sealer) :
    state.sealer (.slot slot) = .ok (.done sealer) := by
  rw [State.sealer, h]

theorem sealer_key {operand : Operand} {key : Bytes}
    (h : operand.value? state.buffers = some key) :
    state.sealer (.key operand) = .ok (Sealer.ofKey key) := by
  rw [State.sealer, value_of_some h]
  rfl

theorem sealer_key_of_none {operand : Operand} (h : operand.value? state.buffers = none) :
    state.sealer (.key operand) = .error .notAllowed := by
  rw [State.sealer, value, h]
  rfl

/-! ## The commands, one by one -/

theorem effect_produce (production : Production) (into : Option String) :
    Effect state (.produce production into) (state.step (.produce production into)).1
      (state.step (.produce production into)).2 := by
  simp only [step]
  cases hproduced : state.produce production with
  | error refusal => exact .nothing (.refl state) (Or.inr rfl)
  | ok produced =>
    dsimp only
    split
    · next name bytes houtcome =>
      exact .stored (succeeded_of_ok (Traced.outcome_andThen_of_ok houtcome _))
    · exact .nothing (.refl state) (Or.inr rfl)

theorem effect_install (slot : String) (operand : Operand) :
    Effect state (.install slot operand) (state.step (.install slot operand)).1
      (state.step (.install slot operand)).2 := by
  cases hvalue : operand.value? state.buffers with
  | none =>
    simp only [step, sealer_key_of_none hvalue]
    exact .nothing (.refl state) (Or.inl rfl)
  | some key =>
    simp only [step, sealer_key hvalue]
    cases hkey : (Sealer.ofKey key).outcome with
    | error error =>
      refine .nothing (.refl state) (Or.inl ?_)
      exact succeeded_of_error (Traced.outcome_andThen_of_error hkey _)
    | ok sealer =>
      exact .installed (succeeded_of_ok (Traced.outcome_andThen_of_ok hkey _)) hvalue hkey

theorem effect_copy (slot source : String) :
    Effect state (.copy slot source) (state.step (.copy slot source)).1
      (state.step (.copy slot source)).2 := by
  simp only [step]
  cases hsource : state.slots.lookup source with
  | none => exact .nothing (.refl state) (Or.inl rfl)
  | some sealer => exact .copied rfl hsource

theorem unchanged_encrypt (holder : Holder) (plaintext aad : Operand) :
    Unchanged state (state.step (.encrypt holder plaintext aad)).2 := by
  simp only [step]
  split
  · exact .refl state
  · split
    · exact .refl state
    · exact ⟨rfl, rfl⟩

theorem unchanged_tryTemplate (template : Template) (plaintext aad : Operand) :
    Unchanged state (state.step (.tryTemplate template plaintext aad)).2 := by
  simp only [step]
  split
  · exact .refl state
  · split
    · exact ⟨rfl, rfl⟩
    · split
      · exact ⟨rfl, rfl⟩
      · exact ⟨rfl, rfl⟩

/-- **Every command has one of the effects.** -/
theorem effect_of_step {command : Command} {reply : Except Refusal (Traced Reply)} {after : State}
    (h : state.step command = (reply, after)) : Effect state command reply after := by
  obtain ⟨rfl, rfl⟩ : (state.step command).1 = reply ∧ (state.step command).2 = after := by
    rw [h]
    exact ⟨rfl, rfl⟩
  cases command with
  | ask query => exact .nothing (.refl state) (Or.inr rfl)
  | produce production into => exact effect_produce production into
  | install slot operand => exact effect_install slot operand
  | copy slot source => exact effect_copy slot source
  | drop slot => exact .dropped rfl
  | encrypt holder plaintext aad =>
    exact .nothing (unchanged_encrypt holder plaintext aad) (Or.inr rfl)
  | generateKeys variant => exact .nothing ⟨rfl, rfl⟩ (Or.inr rfl)
  | tryTemplate template plaintext aad =>
    exact .nothing (unchanged_tryTemplate template plaintext aad) (Or.inr rfl)

/-! ## What follows from the effects alone -/

/-- **A command that fails changes neither slots nor byte strings.** -/
theorem unchanged_of_failed {command : Command} (h : succeeded (state.step command).1 = false) :
    Unchanged state (state.step command).2 := by
  rcases hstep : state.step command with ⟨reply, after⟩
  rw [hstep] at h
  cases effect_of_step hstep with
  | installed hsucceeded _ _ => exact absurd (hsucceeded.symm.trans h) (by simp)
  | copied hsucceeded _ => exact absurd (hsucceeded.symm.trans h) (by simp)
  | dropped hsucceeded => exact absurd (hsucceeded.symm.trans h) (by simp)
  | stored hsucceeded => exact absurd (hsucceeded.symm.trans h) (by simp)
  | nothing hunchanged _ => exact hunchanged

/-- **A slot is changed by the commands that write it, and by no other.** -/
theorem lookup_of_other_target {command : Command} {slot : String}
    (h : command.target? ≠ some slot) :
    (state.step command).2.slots.lookup slot = state.slots.lookup slot := by
  rcases hstep : state.step command with ⟨reply, after⟩
  cases effect_of_step hstep with
  | installed _ _ _ =>
    rw [lookup_put_ite, if_neg fun heq => h (congrArg some heq.symm)]
  | copied _ _ =>
    rw [lookup_put_ite, if_neg fun heq => h (congrArg some heq.symm)]
  | dropped _ =>
    rw [lookup_remove, if_neg fun heq => h (congrArg some heq.symm)]
  | stored _ => rfl
  | nothing hunchanged _ => rw [hunchanged.slots]

end State

/-! ## A key in a slot, and the same key at hand -/

/-- A command that uses a key, without the key. -/
inductive Use where
  | describe
  | overhead (length : Nat)
  | sealedLength (length : Nat)
  | envelope (iv plaintext aad : Operand) (into : Option String)
  | plaintext (envelope aad : Operand) (into : Option String)
  | encrypt (plaintext aad : Operand)

def Use.command : Use → Holder → Command
  | .describe, holder => .ask (.describe holder)
  | .overhead length, holder => .ask (.overhead holder length)
  | .sealedLength length, holder => .ask (.sealedLength holder length)
  | .envelope iv message aad into, holder => .produce (.envelope holder iv message aad) into
  | .plaintext bytes aad into, holder => .produce (.plaintext holder bytes aad) into
  | .encrypt message aad, holder => .encrypt holder message aad

namespace State

variable {state : State} {event : Event}

/-- The same answer after an event, and the same state. -/
def afterEvent (event : Event) (result : Except Refusal (Traced Reply) × State) :
    Except Refusal (Traced Reply) × State :=
  (result.1.map (Traced.after event), result.2)

/-- What is produced after an event is answered after it, and stored all the same. -/
theorem step_produce_after {production production' : Production}
    (h : state.produce production' = (state.produce production).map (Traced.after event))
    (into : Option String) :
    state.step (.produce production' into) =
      afterEvent event (state.step (.produce production into)) := by
  simp only [step, h]
  cases state.produce production with
  | error refusal => rfl
  | ok produced =>
    obtain ⟨log, outcome⟩ := produced
    cases outcome with
    | error error => cases into with
      | none => rfl
      | some name => rfl
    | ok bytes => cases into with
      | none => rfl
      | some name => rfl

/-- Where the key comes from shows in the log, as the event of taking it into use. -/
theorem step_use {slot : String} {operand : Operand} {key : Bytes} {sealer : Sealer}
    (hslot : state.slots.lookup slot = some sealer)
    (hvalue : operand.value? state.buffers = some key)
    (hkey : Sealer.ofKey key = (Traced.done sealer).after event) (use : Use) :
    state.step (use.command (.key operand)) =
      afterEvent event (state.step (use.command (.slot slot))) := by
  have htaken := sealer_slot hslot
  have htaken' := sealer_key hvalue
  rw [hkey] at htaken'
  -- Both ways read the same operands in the same order, and stop at the same one.
  cases use with
  | describe =>
    simp only [Use.command, step, answer, htaken, htaken']
    rfl
  | overhead length =>
    simp only [Use.command, step, answer, htaken, htaken']
    rfl
  | sealedLength length =>
    simp only [Use.command, step, answer, htaken, htaken', bind, Except.bind]
    dsimp only [Traced.after, Traced.done]
    cases bounded (sealer.sealedLength length) with
    | error refusal => rfl
    | ok reply => rfl
  | envelope iv message aad into =>
    refine step_produce_after ?_ into
    simp only [produce, htaken, htaken']
    cases state.vector iv with
    | error refusal => rfl
    | ok iv => cases state.value message with
      | error refusal => rfl
      | ok message => cases state.value aad with
        | error refusal => rfl
        | ok aad => rfl
  | plaintext bytes aad into =>
    refine step_produce_after ?_ into
    simp only [produce, htaken, htaken']
    cases state.value bytes with
    | error refusal => rfl
    | ok bytes => cases state.value aad with
      | error refusal => rfl
      | ok aad => rfl
  | encrypt message aad =>
    simp only [Use.command, step, htaken, htaken']
    cases state.value message with
    | error refusal => rfl
    | ok message => cases state.value aad with
      | error refusal => rfl
      | ok aad => rfl

end State

end Session

end EncryptThenMac
