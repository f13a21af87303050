import EncryptThenMac.Toml.Document

/-!
# No key is read twice

A table is a list of entries, and nothing in its type keeps a key from standing in it twice. The
reader does. It writes an entry only where the key is not there yet, and what it finds there it
replaces in place, so that a key is in a table once and stays where it was first written. `Keyed`
says this of a value and of everything inside it, however deep; `keyed_of_parse?` says it of every
document that can be read.

While a document is read its tables are drafts, and a draft counts as keyed if the table that it
will be when the document ends is. There are then three ways to change a draft: an entry behind the
others (`Draft.Keyed.append`), an entry in the place of another (`Draft.Keyed.replace`), and either
of them further down (`Draft.keyed_of_descend?`).
-/

namespace EncryptThenMac.Toml

/-! ## Keyed values -/

/-- No key occurs twice in any table of a value. -/
inductive Value.Keyed : Value → Prop where
  | scalar {value : Value} : value.kind ≠ .array → value.kind ≠ .table → Keyed value
  | array {items : List Value} : (∀ item ∈ items, Keyed item) → Keyed (.array items)
  | table {entries : Table} : (entries.map Prod.fst).Nodup → (∀ entry ∈ entries, Keyed entry.2) →
      Keyed (.table entries)
  | tables {first : Table} {more : List Table} :
      (∀ entries ∈ first :: more, (entries.map Prod.fst).Nodup) →
      (∀ entries ∈ first :: more, ∀ entry ∈ entries, Keyed entry.2) → Keyed (.tables first more)

/-- No key occurs twice in a table, nor in any table inside it. -/
structure Table.Keyed (entries : Table) : Prop where
  distinct : (entries.map Prod.fst).Nodup
  values : ∀ entry ∈ entries, entry.2.Keyed

theorem Value.Keyed.ofTable {entries : Table} (h : Table.Keyed entries) :
    (Value.table entries).Keyed :=
  .table h.distinct h.values

theorem Table.Keyed.ofValue {entries : Table} (h : (Value.table entries).Keyed) :
    Table.Keyed entries := by
  cases h with
  | scalar _ htable => exact absurd rfl htable
  | table hdistinct hvalues => exact ⟨hdistinct, hvalues⟩

/-- An array of tables, as those tables. -/
theorem Value.keyed_tables_iff {first : Table} {more : List Table} :
    (tables first more).Keyed ↔ ∀ entries ∈ first :: more, Table.Keyed entries := by
  constructor
  · intro h
    cases h with
    | scalar harray _ => exact absurd rfl harray
    | tables hdistinct hvalues =>
      intro entries hentries
      exact ⟨hdistinct entries hentries, hvalues entries hentries⟩
  · intro h
    exact .tables (fun entries hentries => (h entries hentries).distinct)
      fun entries hentries => (h entries hentries).values

/-! ## Looking up -/

section

variable {α : Type} {key : String} {entries : List (String × α)}

theorem mem_of_lookup {a : α} (h : entries.lookup key = some a) : (key, a) ∈ entries := by
  obtain ⟨before, behind, rfl, _⟩ := List.lookup_eq_some_iff.mp h
  exact List.mem_append_right before List.mem_cons_self

theorem lookup_eq_none_iff : entries.lookup key = none ↔ key ∉ entries.map Prod.fst := by
  rw [List.lookup_eq_none_iff, List.mem_map]
  constructor
  · rintro h ⟨entry, hentry, rfl⟩
    exact absurd (h entry hentry) (by simp)
  · intro h entry hentry
    exact bne_iff_ne.mpr fun hkey => h ⟨entry, hentry, hkey.symm⟩

/-- Where no key occurs twice, an entry is found by its key. -/
theorem lookup_of_mem {a : α} (hdistinct : (entries.map Prod.fst).Nodup)
    (h : (key, a) ∈ entries) : entries.lookup key = some a := by
  induction entries with
  | nil => exact absurd h (by simp)
  | cons entry rest ih =>
    rw [List.map_cons, List.nodup_cons] at hdistinct
    rcases List.mem_cons.mp h with rfl | hrest
    · rw [List.lookup_cons_self]
    · have hk : key ≠ entry.1 := by
        rintro rfl
        exact hdistinct.1 (List.mem_map.mpr ⟨(entry.1, a), hrest, rfl⟩)
      rw [List.lookup_cons, beq_false_of_ne hk]
      exact ih hdistinct.2 hrest

end

/-! ## Drafts -/

namespace Draft

theorem finish_eq_map : ∀ draft : Draft,
    finish draft = draft.map fun entry => (entry.1, entry.2.finish)
  | [] => by rw [finish, List.map_nil]
  | (key, node) :: rest => by rw [finish, finish_eq_map rest, List.map_cons]

theorem finishAll_eq_map : ∀ drafts : List Draft, finishAll drafts = drafts.map finish
  | [] => by rw [finishAll, List.map_nil]
  | draft :: rest => by rw [finishAll, finishAll_eq_map rest, List.map_cons]

/-- The table that a draft is going to be is keyed. -/
def Keyed (draft : Draft) : Prop :=
  Table.Keyed (finish draft)

variable {draft : Draft} {key : String} {node : Node}

/-- Keys do not change when a draft becomes a table, and values do so one by one. -/
theorem keyed_iff : Keyed draft ↔
    (draft.map Prod.fst).Nodup ∧ ∀ entry ∈ draft, entry.2.finish.Keyed := by
  have hkeys : (finish draft).map Prod.fst = draft.map Prod.fst := by
    rw [finish_eq_map, List.map_map]
    rfl
  constructor
  · rintro ⟨hdistinct, hvalues⟩
    rw [hkeys] at hdistinct
    refine ⟨hdistinct, fun entry hentry => ?_⟩
    apply hvalues (entry.1, entry.2.finish)
    rw [finish_eq_map]
    exact List.mem_map_of_mem hentry
  · rintro ⟨hdistinct, hvalues⟩
    refine ⟨hkeys ▸ hdistinct, fun entry hentry => ?_⟩
    rw [finish_eq_map] at hentry
    obtain ⟨origin, horigin, rfl⟩ := List.mem_map.mp hentry
    exact hvalues origin horigin

theorem keyed_nil : Keyed [] := by
  rw [keyed_iff]
  exact ⟨List.nodup_nil, fun entry hentry => absurd hentry (by simp)⟩

/-- An entry is added behind the others only if a search for its key finds nothing. -/
theorem Keyed.append (h : Keyed draft) (hkey : draft.lookup key = none)
    (hnode : node.finish.Keyed) : Keyed (draft ++ [(key, node)]) := by
  rw [keyed_iff] at h ⊢
  constructor
  · rw [List.map_append, List.map_singleton, List.nodup_append]
    refine ⟨h.1, by simp, ?_⟩
    intro other hother new hnew
    rw [List.mem_singleton.mp hnew]
    rintro rfl
    exact lookup_eq_none_iff.mp hkey hother
  · intro entry hentry
    rcases List.mem_append.mp hentry with hold | hnew
    · exact h.2 entry hold
    · rw [List.mem_singleton.mp hnew]
      exact hnode

/-- To replace is to change a value and leave all keys as they are. -/
theorem Keyed.replace (h : Keyed draft) (hnode : node.finish.Keyed) :
    Keyed (draft.replace key node) := by
  rw [keyed_iff] at h ⊢
  have hkeys : (draft.replace key node).map Prod.fst = draft.map Prod.fst := by
    rw [Draft.replace, List.map_map]
    refine List.map_congr_left fun entry _ => ?_
    show (if entry.1 == key then (entry.1, node) else entry).1 = entry.1
    split <;> rfl
  refine ⟨hkeys ▸ h.1, fun entry hentry => ?_⟩
  obtain ⟨⟨k, n⟩, hold, hentry⟩ := List.mem_map.mp hentry
  dsimp only at hentry
  split at hentry
  · obtain rfl := hentry
    exact hnode
  · obtain rfl := hentry
    exact h.2 (k, n) hold

theorem Keyed.lookup (h : Keyed draft) (hkey : draft.lookup key = some node) :
    node.finish.Keyed :=
  (keyed_iff.mp h).2 (key, node) (mem_of_lookup hkey)

theorem keyed_finish_table_iff {origin : Origin} {inner : Draft} :
    (Node.table origin inner).finish.Keyed ↔ Keyed inner := by
  rw [Node.finish]
  exact ⟨Table.Keyed.ofValue, Value.Keyed.ofTable⟩

theorem keyed_finish_tables_iff {earlier : List Draft} {last : Draft} :
    (Node.tables earlier last).finish.Keyed ↔ (∀ draft ∈ earlier, Keyed draft) ∧ Keyed last := by
  have hall : (∀ entries ∈ (finishAll earlier).reverse, Table.Keyed entries) ↔
      ∀ draft ∈ earlier, Keyed draft := by
    simp [finishAll_eq_map, Keyed]
  rw [← hall, Node.finish]
  split
  · next hnone => simp [Value.keyed_tables_iff, hnone, Keyed]
  · next first more hsome =>
    rw [Value.keyed_tables_iff, hsome]
    simp only [List.mem_cons, List.mem_append, List.not_mem_nil, or_false, Keyed]
    constructor
    · intro h
      exact ⟨fun entries hentries => h entries (hentries.imp_right Or.inl),
        h _ (Or.inr (Or.inr rfl))⟩
    · rintro ⟨hearlier, hlast⟩ entries (hfirst | hmore | rfl)
      · exact hearlier entries (Or.inl hfirst)
      · exact hearlier entries (Or.inr hmore)
      · exact hlast

/-- **A change at the end of a path keeps every table on the way keyed.** By induction on the
path: one more table is put back into the one around it, or added behind its entries. -/
theorem keyed_of_descend? {made : Origin} {change : Origin → Draft → Option Draft}
    (hchange : ∀ origin draft draft', Keyed draft → change origin draft = some draft' →
      Keyed draft') :
    ∀ (path : List String) (origin : Origin) {draft draft' : Draft}, Keyed draft →
      descend? made change path origin draft = some draft' → Keyed draft'
  | [], origin, draft, draft', h, hdone => by
    rw [descend?] at hdone
    exact hchange origin draft draft' h hdone
  | key :: path, _, draft, draft', h, hdone => by
    rw [descend?] at hdone
    split at hdone
    · next hnone =>
      obtain ⟨inner, hinner, hdone⟩ := Option.bind_eq_some_iff.mp hdone
      obtain rfl := Option.some.inj hdone
      exact h.append hnone
        (keyed_finish_table_iff.mpr (keyed_of_descend? hchange path made keyed_nil hinner))
    · exact absurd hdone (by simp)
    · next origin inner hsome =>
      have hbefore := keyed_finish_table_iff.mp (h.lookup hsome)
      split at hdone
      · exact absurd hdone (by simp)
      · obtain ⟨inner', hinner, hdone⟩ := Option.bind_eq_some_iff.mp hdone
        obtain rfl := Option.some.inj hdone
        exact h.replace
          (keyed_finish_table_iff.mpr (keyed_of_descend? hchange path origin hbefore hinner))
    · next earlier last hsome =>
      obtain ⟨hearlier, hlast⟩ := keyed_finish_tables_iff.mp (h.lookup hsome)
      obtain ⟨last', hlast', hdone⟩ := Option.bind_eq_some_iff.mp hdone
      obtain rfl := Option.some.inj hdone
      exact h.replace (keyed_finish_tables_iff.mpr
        ⟨hearlier, keyed_of_descend? hchange path .header hlast hlast'⟩)

variable {draft' : Draft}

theorem keyed_of_addEntry? {path : List String} {value : Value} {origin : Origin} (h : Keyed draft)
    (hvalue : value.Keyed) (hdone : addEntry? path key value origin draft = some draft') :
    Keyed draft' := by
  refine keyed_of_descend? ?_ path origin h hdone
  intro origin draft draft' h hdone
  dsimp only at hdone
  split at hdone
  · exact absurd hdone (by simp)
  · next hfree =>
    obtain rfl := Option.some.inj hdone
    have hnone : draft.lookup key = none := by
      rw [← Option.not_isSome_iff_eq_none]
      exact fun hsome => hfree (Or.inr hsome)
    exact h.append hnone hvalue

/-- A header adds an empty table, or opens again one that it finds. -/
theorem keyed_of_openTable? (h : Keyed draft) (hdone : openTable? key draft = some draft') :
    Keyed draft' := by
  unfold openTable? at hdone
  split at hdone
  · next hnone =>
    obtain rfl := Option.some.inj hdone
    exact h.append hnone (keyed_finish_table_iff.mpr keyed_nil)
  · next inner hsome =>
    obtain rfl := Option.some.inj hdone
    exact h.replace (keyed_finish_table_iff.mpr (keyed_finish_table_iff.mp (h.lookup hsome)))
  · exact absurd hdone (by simp)

theorem keyed_of_openElement? (h : Keyed draft) (hdone : openElement? key draft = some draft') :
    Keyed draft' := by
  unfold openElement? at hdone
  split at hdone
  · next hnone =>
    obtain rfl := Option.some.inj hdone
    exact h.append hnone (keyed_finish_tables_iff.mpr
      ⟨fun draft hdraft => absurd hdraft (by simp), keyed_nil⟩)
  · next earlier last hsome =>
    obtain rfl := Option.some.inj hdone
    obtain ⟨hearlier, hlast⟩ := keyed_finish_tables_iff.mp (h.lookup hsome)
    refine h.replace (keyed_finish_tables_iff.mpr ⟨?_, keyed_nil⟩)
    intro element helement
    rcases List.mem_cons.mp helement with rfl | hmem
    · exact hlast
    · exact hearlier element hmem
  · exact absurd hdone (by simp)

end Draft

/-! ## Reading -/

/-- What a reader reads is keyed. -/
def ReadsKeyed (value? : Reader Value) : Prop :=
  ∀ text value rest, value? text = some (value, rest) → value.Keyed

theorem keyed_of_entry {value? : Reader Value} (hvalue? : ReadsKeyed value?)
    {text rest : List Char} {path : List String} {key : String} {value : Value}
    (h : entry? value? text = some ((path, key, value), rest)) : value.Keyed := by
  obtain ⟨⟨⟨path', key'⟩, behind⟩, _, h⟩ := Option.bind_eq_some_iff.mp h
  dsimp only at h
  split at h
  · obtain ⟨⟨value', rest'⟩, hread, h⟩ := Option.bind_eq_some_iff.mp h
    obtain ⟨⟨-, -, rfl⟩, -⟩ := by simpa using h
    exact hvalue? _ _ _ hread
  · exact absurd h (by simp)

namespace Value

theorem keyed_of_items? {item? : Reader Value} (hitem? : ReadsKeyed item?) :
    ∀ (budget : Nat) {text rest : List Char} {items : List Value},
      items? item? budget text = some (items, rest) → ∀ item ∈ items, item.Keyed
  | 0, _, _, _, h => by exact absurd h (by simp [items?])
  | budget + 1, text, rest, items, h => by
    rw [items?] at h
    split at h
    · obtain ⟨rfl, -⟩ := by simpa using h
      simp
    · obtain ⟨⟨item, behind⟩, hitem, h⟩ := Option.bind_eq_some_iff.mp h
      dsimp only at h
      split at h
      · obtain ⟨⟨later, behind'⟩, hlater, h⟩ := Option.bind_eq_some_iff.mp h
        obtain ⟨rfl, -⟩ := by simpa using h
        intro other hother
        rcases List.mem_cons.mp hother with rfl | hmem
        · exact hitem? _ _ _ hitem
        · exact keyed_of_items? hitem? budget hlater other hmem
      · obtain ⟨rfl, -⟩ := by simpa using h
        intro other hother
        rw [List.mem_singleton.mp hother]
        exact hitem? _ _ _ hitem
      · exact absurd h (by simp)

/-- By induction on the budget, which is spent with each entry. -/
theorem keyed_of_entries? {item? : Reader Value} (hitem? : ReadsKeyed item?) :
    ∀ (budget : Nat) {draft draft' : Draft} {text rest : List Char}, draft.Keyed →
      entries? item? budget draft text = some (draft', rest) → draft'.Keyed
  | 0, _, _, _, _, _, h => by exact absurd h (by simp [entries?])
  | budget + 1, draft, draft', text, rest, hdraft, h => by
    rw [entries?] at h
    obtain ⟨⟨⟨path, key, value⟩, behind⟩, hentry, h⟩ := Option.bind_eq_some_iff.mp h
    obtain ⟨added, hadd, h⟩ := Option.bind_eq_some_iff.mp h
    have hadded : added.Keyed :=
      Draft.keyed_of_addEntry? hdraft (keyed_of_entry hitem? hentry) hadd
    split at h
    · exact keyed_of_entries? hitem? budget hadded h
    · obtain ⟨rfl, -⟩ := by simpa using h
      exact hadded
    · exact absurd h (by simp)

theorem keyed_of_braced? {item? : Reader Value} (hitem? : ReadsKeyed item?)
    {text rest : List Char} {entries : Table} (h : braced? item? text = some (entries, rest)) :
    Table.Keyed entries := by
  rw [braced?] at h
  split at h
  · obtain ⟨rfl, -⟩ := by simpa using h
    exact Draft.keyed_nil
  · obtain ⟨⟨draft, behind⟩, hentries, h⟩ := Option.map_eq_some_iff.mp h
    obtain ⟨rfl, -⟩ := by simpa using h
    exact keyed_of_entries? hitem? _ Draft.keyed_nil hentries

theorem keyed_of_made {α : Type} {make : α → Value} {found : Option (α × List Char)}
    {value : Value} {rest : List Char} (hmake : ∀ a, (make a).Keyed)
    (h : found.map (fun (a, rest) => (make a, rest)) = some (value, rest)) : value.Keyed := by
  obtain ⟨⟨a, behind⟩, _, h⟩ := Option.map_eq_some_iff.mp h
  obtain ⟨rfl, -⟩ := Prod.mk.inj h
  exact hmake a

theorem keyed_of_scalar? {text rest : List Char} {value : Value}
    (h : scalar? text = some (value, rest)) : value.Keyed := by
  simp only [scalar?, Option.orElse_eq_orElse, Option.orElse_eq_or, Option.or_eq_some_iff] at h
  rcases h with h | ⟨-, h | ⟨-, h | ⟨-, h | ⟨-, h⟩⟩⟩⟩
  all_goals exact keyed_of_made (fun a => .scalar (by simp [kind]) (by simp [kind])) h

/-- **What is read at any depth is keyed.** By induction on the depth: an array and a table in
braces are read with the reader for the depth below. -/
theorem readsKeyed_read? (depth : Nat) : ReadsKeyed (read? depth) := by
  induction depth with
  | zero =>
    intro text value rest h
    unfold read? at h
    exact keyed_of_scalar? h
  | succ depth ih =>
    intro text value rest h
    unfold read? at h
    split at h
    · next hdepth =>
      obtain rfl := Nat.succ.inj hdepth
      obtain ⟨⟨items, behind⟩, hitems, h⟩ := Option.map_eq_some_iff.mp h
      obtain ⟨rfl, -⟩ := Prod.mk.inj h
      exact .array (keyed_of_items? ih _ hitems)
    · next hdepth =>
      obtain rfl := Nat.succ.inj hdepth
      obtain ⟨⟨entries, behind⟩, hentries, h⟩ := Option.map_eq_some_iff.mp h
      obtain ⟨rfl, -⟩ := Prod.mk.inj h
      exact .ofTable (keyed_of_braced? ih hentries)
    · exact keyed_of_scalar? h

end Value

namespace Document

theorem keyed_of_header? {openKey? : String → Draft → Option Draft}
    (hopen : ∀ {key draft draft'}, Draft.Keyed draft → openKey? key draft = some draft' →
      Draft.Keyed draft')
    {close : List Char → Option (List Char)} {state state' : State} {text rest : List Char}
    (hstate : state.draft.Keyed) (h : header? openKey? close state text = some (state', rest)) :
    state'.draft.Keyed := by
  obtain ⟨⟨⟨path, key⟩, behind⟩, _, h⟩ := Option.bind_eq_some_iff.mp h
  obtain ⟨behind', _, h⟩ := Option.bind_eq_some_iff.mp h
  obtain ⟨draft, hdescend, h⟩ := Option.bind_eq_some_iff.mp h
  obtain ⟨rfl, -⟩ := by simpa using h
  exact Draft.keyed_of_descend? (fun _ _ _ hbefore hafter => hopen hbefore hafter) path .header
    hstate hdescend

/-- A line keeps the draft keyed. -/
theorem keyed_of_line? {state state' : State} {text rest : List Char}
    (hstate : state.draft.Keyed) (h : line? state text = some (state', rest)) :
    state'.draft.Keyed := by
  unfold line? at h
  split at h
  · exact keyed_of_header? Draft.keyed_of_openElement? hstate h
  · exact keyed_of_header? Draft.keyed_of_openTable? hstate h
  · obtain ⟨⟨⟨path, key, value⟩, behind⟩, hentry, h⟩ := Option.bind_eq_some_iff.mp h
    obtain ⟨draft, hdescend, h⟩ := Option.bind_eq_some_iff.mp h
    obtain ⟨rfl, -⟩ := by simpa using h
    have hvalue : value.Keyed := keyed_of_entry (Value.readsKeyed_read? maximumDepth) hentry
    exact Draft.keyed_of_descend?
      (fun _ _ _ hbefore hafter => Draft.keyed_of_addEntry? hbefore hvalue hafter)
      state.current .header hstate hdescend

/-- By induction on the budget, which is spent with each line. -/
theorem keyed_of_lines? : ∀ (budget : Nat) {state state' : State} {text : List Char},
    state.draft.Keyed → lines? budget state text = some state' → state'.draft.Keyed
  | 0, _, _, _, _, h => by exact absurd h (by simp [lines?])
  | budget + 1, state, state', text, hstate, h => by
    rw [lines?] at h
    split at h
    · obtain rfl := Option.some.inj h
      exact hstate
    · split at h
      · obtain ⟨text', _, h⟩ := Option.bind_eq_some_iff.mp h
        exact keyed_of_lines? budget hstate h
      · obtain ⟨⟨next, rest⟩, hline, h⟩ := Option.bind_eq_some_iff.mp h
        obtain ⟨text', _, h⟩ := Option.bind_eq_some_iff.mp h
        exact keyed_of_lines? budget (keyed_of_line? hstate hline) h

/-- **No key occurs twice in a document**, nor in anything inside it. -/
theorem keyed_of_parse? {text : String} {document : Table} (h : parse? text = some document) :
    Table.Keyed document := by
  obtain ⟨state, hlines, rfl⟩ := Option.map_eq_some_iff.mp h
  exact keyed_of_lines? _ Draft.keyed_nil hlines

end Document

end EncryptThenMac.Toml
