import EncryptThenMac.Proofs.DistinctKeys
import EncryptThenMac.Template

/-!
# What a configuration says is in one entry

Of a document a template takes the entry `algorithm` and nothing else. What this entry can be for a
variant is one relation, `Spells`, and an absent entry is one of its cases. What can be wrong with
an entry is a list of four checks, each written so that it makes sense by itself and looks at
nothing that another one has to have let pass first. The reader has them tangled: it takes the
table apart, asks for the name in the middle, and looks at what is beside it last. So it has to be
shown that what it reports is the fault of the first check that finds one (`faultOf_variantOf`), and
that an entry without a fault is one of the spellings and no other (`variantOf_eq_ok_iff`).

There is one entry `algorithm` at most. In a table as such this is not a matter of course, and a
search would find the first. But no key is twice in a document that has been read
(`Toml.Document.keyed_of_parse?`), so that there it can be said without a search.
-/

namespace EncryptThenMac

theorem Variant.ofExactName?_eq_some_iff {name : String} {variant : Variant} :
    ofExactName? name = some variant ↔ name = variant.name := by
  constructor
  · intro h
    exact (name_of_ofExactName? h).symm
  · rintro rfl
    exact ofExactName?_name variant

theorem Variant.ofExactName?_eq_none_iff {name : String} :
    ofExactName? name = none ↔ ∀ variant : Variant, name ≠ variant.name := by
  rw [Option.eq_none_iff_forall_ne_some]
  exact forall_congr' fun variant => not_congr ofExactName?_eq_some_iff

namespace Template

/-! ## What an entry can be -/

/-- What the entry `algorithm` can be for a variant, if there is one. -/
inductive Spells (variant : Variant) : Option Toml.Value → Prop where
  | missing : variant = .a256cbcHs512 → Spells variant none
  | string : Spells variant (some (.string variant.name))
  | table {beside : Toml.Value} : beside = .table [] ∨ beside = .array [] →
      Spells variant (some (.table [(variant.name, beside)]))

/-! ## The checks, each by itself -/

/-- What one check finds wrong with a value. It looks at what it is about and at nothing else, so it
also finds fault with values that an earlier check would not have let pass. -/
abbrev Check := Toml.Value → Option Fault

/-- The entry is a name, or a table that has one for its key. -/
def checkKind : Check
  | .string _ => none
  | .table _ => none
  | _ => some .notStringOrTable

/-- A table has one key. Which one, and what is beside it, is left to the others. -/
def checkCount : Check
  | .table entries =>
    if entries.length = 1 then none
    else if entries.length = 0 then some .noKey
    else some .severalKeys
  | _ => none

/-- What is wrong with a text as a name. It is quoted as it is. -/
def unknownName (name : String) : Option Fault :=
  if ∃ variant ∈ Variant.all, name = variant.name then none else some (.unknownVariant name)

/-- The name is that of a variant. Of a table with several keys it is the first that counts. -/
def checkName : Check
  | .string name => unknownName name
  | .table (entry :: _) => unknownName entry.1
  | _ => none

/-- Beside the name of a table is nothing, which can be written as an empty table or
as an empty array. -/
def checkBeside : Check
  | .table (entry :: _) =>
    match entry.2 with
    | .table entries => if entries.isEmpty then none else some .notEmptyTable
    | .array items => if items.isEmpty then none else some .notEmptyTable
    | .tables _ _ => some .notEmptyArray
    | scalar => some (.notTable scalar.kind)
  | _ => none

/-- The checks in their order. -/
def checks : List Check :=
  [checkKind, checkCount, checkName, checkBeside]

/-- A check finds a fault, and those before it have found none. -/
def FirstFault (value : Toml.Value) (fault : Fault) : Prop :=
  ∃ passed check later, checks = passed ++ check :: later ∧
    (∀ earlier ∈ passed, earlier value = none) ∧ check value = some fault

/-- To find the first fault is to search through the checks. -/
theorem firstFault_iff {value : Toml.Value} {fault : Fault} :
    FirstFault value fault ↔ checks.findSome? (fun check => check value) = some fault := by
  rw [List.findSome?_eq_some_iff]
  constructor
  · rintro ⟨passed, check, later, hchecks, hpassed, hcheck⟩
    exact ⟨passed, check, later, hchecks, hcheck, hpassed⟩
  · rintro ⟨passed, check, later, hchecks, hcheck, hpassed⟩
    exact ⟨passed, check, later, hchecks, hpassed, hcheck⟩

theorem findSome?_checks (value : Toml.Value) :
    (checks.findSome? fun check => check value) =
      (checkKind value).or ((checkCount value).or ((checkName value).or (checkBeside value))) := by
  rw [checks]
  cases hkind : checkKind value with
  | some fault => simp [hkind]
  | none =>
    cases hcount : checkCount value with
    | some fault => simp [hkind, hcount]
    | none =>
      cases hname : checkName value with
      | some fault => simp [hkind, hcount, hname]
      | none => cases hbeside : checkBeside value <;> simp [hkind, hcount, hname, hbeside]

/-! ## Decoding an entry -/

theorem named_eq_ok_iff {name : String} {variant : Variant} :
    named name = .ok variant ↔ name = variant.name := by
  rw [← Variant.ofExactName?_eq_some_iff, named]
  cases Variant.ofExactName? name with
  | none => simp
  | some found => simp

theorem named_of_unknown {name : String} (h : ∀ variant : Variant, name ≠ variant.name) :
    named name = .error (.unknownVariant name) := by
  rw [named, Variant.ofExactName?_eq_none_iff.mpr h]

/-- What a step finds wrong. -/
def faultOf {α : Type} : Except Fault α → Option Fault
  | .ok _ => none
  | .error fault => some fault

theorem unknownName_eq (name : String) : unknownName name = faultOf (named name) := by
  unfold unknownName
  split
  · next h =>
    obtain ⟨variant, _, hname⟩ := h
    rw [named_eq_ok_iff.mpr hname]
    rfl
  · next h =>
    rw [named_of_unknown fun variant hname => h ⟨variant, variant.mem_all, hname⟩]
    rfl

theorem checkBeside_singleton (name : String) (beside : Toml.Value) :
    checkBeside (.table [(name, beside)]) = faultOf (checkEmpty beside) := by
  cases beside with
  | table entries => cases entries <;> rfl
  | array items => cases items <;> rfl
  | _ => rfl

/-- The name is looked at first, and what is beside it only if the name is one. -/
theorem faultOf_variantOf_singleton (name : String) (beside : Toml.Value) :
    faultOf (variantOf (.table [(name, beside)])) =
      (unknownName name).or (checkBeside (.table [(name, beside)])) := by
  rw [unknownName_eq, checkBeside_singleton]
  show faultOf ((named name).bind fun variant => (checkEmpty beside).bind fun _ => .ok variant) = _
  cases named name with
  | error fault => rfl
  | ok variant =>
    cases checkEmpty beside with
    | error fault => rfl
    | ok _ => rfl

/-- **Decoding reports the first fault**, and none if every check passes. -/
theorem faultOf_variantOf (value : Toml.Value) :
    faultOf (variantOf value) = checks.findSome? fun check => check value := by
  rw [findSome?_checks]
  cases value with
  | string name =>
    show _ = (unknownName name).or none
    rw [unknownName_eq, Option.or_none]
    rfl
  | table entries =>
    match entries with
    | [] => rfl
    | [(name, beside)] =>
      exact faultOf_variantOf_singleton name beside
    | _ :: _ :: _ => rfl
  | _ => rfl

/-- What is reported is the first fault, and a first fault is reported. -/
theorem variantOf_eq_error_iff {value : Toml.Value} {fault : Fault} :
    variantOf value = .error fault ↔ FirstFault value fault := by
  rw [firstFault_iff, ← faultOf_variantOf]
  cases variantOf value with
  | ok variant => simp [faultOf]
  | error found => simp [faultOf]

theorem checkEmpty_eq_ok_iff {beside : Toml.Value} :
    checkEmpty beside = .ok () ↔ beside = .table [] ∨ beside = .array [] := by
  cases beside with
  | table entries => cases entries <;> simp [checkEmpty]
  | array items => cases items <;> simp [checkEmpty]
  | _ => simp [checkEmpty]

theorem variantOf_of_spells {variant : Variant} {value : Toml.Value}
    (h : Spells variant (some value)) : variantOf value = .ok variant := by
  cases h with
  | string => exact named_eq_ok_iff.mpr rfl
  | @table beside hbeside =>
    have hname : named variant.name = .ok variant := named_eq_ok_iff.mpr rfl
    have hempty : checkEmpty beside = .ok () := checkEmpty_eq_ok_iff.mpr hbeside
    rw [variantOf, hname]
    show (checkEmpty beside).bind _ = _
    rw [hempty]
    rfl

theorem spells_of_variantOf {variant : Variant} {value : Toml.Value}
    (h : variantOf value = .ok variant) : Spells variant (some value) := by
  cases value with
  | string name =>
    obtain rfl := named_eq_ok_iff.mp h
    exact .string
  | table entries =>
    match entries with
    | [] => exact absurd h (by simp [variantOf])
    | [(name, beside)] =>
      -- Both steps have succeeded, the name's and that of the value beside it.
      cases hnamed : named name with
      | error fault =>
        rw [variantOf, hnamed] at h
        exact absurd h (by simp [bind, Except.bind])
      | ok found =>
        cases hempty : checkEmpty beside with
        | error fault =>
          rw [variantOf, hnamed] at h
          exact absurd h (by simp [bind, Except.bind, hempty])
        | ok _ =>
          rw [variantOf, hnamed] at h
          simp only [bind, Except.bind, hempty] at h
          obtain rfl := Except.ok.inj h
          obtain rfl := named_eq_ok_iff.mp hnamed
          exact .table (checkEmpty_eq_ok_iff.mp hempty)
    | _ :: _ :: _ => exact absurd h (by simp [variantOf])
  | _ => exact absurd h (by simp [variantOf])

/-- What decodes to a variant is one of its spellings. -/
theorem variantOf_eq_ok_iff {variant : Variant} {value : Toml.Value} :
    variantOf value = .ok variant ↔ Spells variant (some value) :=
  ⟨spells_of_variantOf, variantOf_of_spells⟩

/-! ## Decoding a document -/

theorem map_mk_eq_ok_iff {found : Except Fault Variant} {template : Template} :
    found.map Template.mk = .ok template ↔ found = .ok template.variant := by
  obtain ⟨variant⟩ := template
  cases found <;> simp [Except.map]

theorem map_mk_eq_error_iff {found : Except Fault Variant} {fault : Fault} :
    found.map Template.mk = .error fault ↔ found = .error fault := by
  cases found <;> simp [Except.map]

theorem mapError_eq_ok_iff {wrap : Fault → Error} {found : Except Fault Template}
    {template : Template} : found.mapError wrap = .ok template ↔ found = .ok template := by
  cases found with
  | ok other =>
    show Except.ok other = .ok template ↔ _
    rw [Except.ok.injEq, Except.ok.injEq]
  | error fault => exact iff_of_false (fun h => nomatch h) (fun h => nomatch h)

/-- A missing entry is the spelling of one variant, so a document without it needs no case here. -/
theorem ofTable_eq_ok_iff {document : Toml.Table} {template : Template} :
    ofTable document = .ok template ↔ Spells template.variant (document.lookup "algorithm") := by
  unfold ofTable
  cases document.lookup "algorithm" with
  | none =>
    constructor
    · intro h
      obtain rfl := Except.ok.inj h
      exact .missing rfl
    · intro h
      obtain ⟨variant⟩ := template
      cases h with
      | missing hvariant =>
        obtain rfl := hvariant
        rfl
  | some value => exact map_mk_eq_ok_iff.trans variantOf_eq_ok_iff

theorem ofTable_eq_error_iff {document : Toml.Table} {fault : Fault} :
    ofTable document = .error fault ↔
      ∃ value, document.lookup "algorithm" = some value ∧ FirstFault value fault := by
  unfold ofTable
  cases document.lookup "algorithm" with
  | none => simp
  | some value =>
    simp only [Option.some.injEq, exists_eq_left']
    exact map_mk_eq_error_iff.trans variantOf_eq_error_iff

theorem ofText_of_parse? {text : String} {document : Toml.Table}
    (h : Toml.Document.parse? text = some document) :
    ofText text = (ofTable document).mapError Error.config := by
  rw [ofText, read, h]

theorem ofText_of_ill_formed {text : String} (h : Toml.Document.parse? text = none) :
    ofText text = .error (.config .illFormed) := by
  rw [ofText, read, h]
  rfl

/-- **What a document says is in its entry `algorithm`.** It gives a variant exactly if the entry
spells it, and otherwise the fault of the first check that fails; so documents that agree on the
entry, or on its absence, give the same, whatever else is in them and however deep. For a text that
is a document, the entry is the only one of its key. -/
theorem decoding_follows_the_entry :
    (∀ document template, ofTable document = .ok template ↔
      Spells template.variant (document.lookup "algorithm")) ∧
    (∀ document fault, ofTable document = .error fault ↔
      ∃ value, document.lookup "algorithm" = some value ∧ FirstFault value fault) ∧
    (∀ document document' : Toml.Table,
      document'.lookup "algorithm" = document.lookup "algorithm" →
      ofTable document' = ofTable document) ∧
    (∀ text document, Toml.Document.parse? text = some document →
      document.Keyed ∧
      (∀ value, document.lookup "algorithm" = some value ↔ ("algorithm", value) ∈ document) ∧
      ofText text = (ofTable document).mapError Error.config) ∧
    (∀ text, Toml.Document.parse? text = none → ofText text = .error (.config .illFormed)) ∧
    (∀ fault : Fault, (Error.config fault).message = "Config file error: " ++ fault.reason) := by
  refine ⟨fun _ _ => ofTable_eq_ok_iff, fun _ _ => ofTable_eq_error_iff, ?_, ?_,
    fun _ => ofText_of_ill_formed, fun _ => rfl⟩
  · intro document document' h
    rw [ofTable, ofTable, h]
  · intro text document hparse
    have hkeyed := Toml.Document.keyed_of_parse? hparse
    exact ⟨hkeyed, fun value => ⟨Toml.mem_of_lookup, Toml.lookup_of_mem hkeyed.distinct⟩,
      ofText_of_parse? hparse⟩

/-- Two keys, of which neither is a name: what is reported is their number. And a name beside an
empty array, behind an entry of somebody else. -/
theorem decoding_follows_the_entry_tables :
    ofTable [("algorithm", .table [("x", .integer 1), ("y", .integer 2)])] = .error .severalKeys ∧
    ofTable [("x", .table []), ("algorithm", .table [("A192CBC-HS384", .array [])])] =
      .ok ⟨.a192cbcHs384⟩ := by
  obtain ⟨hok, herror, _⟩ := decoding_follows_the_entry
  constructor
  · rw [herror]
    refine ⟨_, rfl, [checkKind], checkCount, [checkName, checkBeside], rfl, ?_, rfl⟩
    intro earlier hearlier
    rw [List.mem_singleton.mp hearlier]
    rfl
  · rw [hok]
    exact .table (Or.inr rfl)

end Template

end EncryptThenMac
