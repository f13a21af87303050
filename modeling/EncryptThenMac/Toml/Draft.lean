import EncryptThenMac.Toml.Value

/-!
# Putting a table together

The lines of a document arrive in any order: a header opens a table that an earlier header or a
dotted key has already made, a dotted key reaches into one, and a double-bracketed header adds
an element to an array. What may still be added to a table depends on how the table came about,
so while a document is read each table carries its `Origin`. A `Draft` is a table in that state;
when the document ends, `Draft.finish` forgets the origins.

The rules, with the definition that holds each:

- an entry is written once (`addEntry?`, `openTable?`);
- a table that a header opened, or that was written in braces, takes no entries through a dotted
  key from outside (`descend?`);
- an entry goes in by a dotted key only where a dotted key made the table, and by a plain key
  only where a header did (`addEntry?`);
- a table that only a longer header implied may still be opened by its own header, once
  (`openTable?`);
- a key that leads through an array of tables leads into its last element (`descend?`).
-/

namespace EncryptThenMac.Toml

/-- How a table came about. -/
inductive Origin where
  -- By its own header, or as the document itself.
  | header
  -- By a longer header that leads through it.
  | longerHeader
  -- By a dotted key that leads through it.
  | dottedKey
deriving DecidableEq

/-- An entry of a table that is being put together. -/
inductive Node where
  | value (value : Value)
  | table (origin : Origin) (entries : List (String × Node))
  -- An array of tables, with its last element apart, the one that can still grow. Of the
  -- earlier elements the latest comes first.
  | tables (earlier : List (List (String × Node))) (last : List (String × Node))

/-- The entries of a table that is being put together, in the order in which they were written.
-/
abbrev Draft := List (String × Node)

namespace Draft

def replace (key : String) (node : Node) (draft : Draft) : Draft :=
  draft.map fun (k, n) => if k == key then (k, node) else (k, n)

/-- Follows a path down from a table of the given origin, and changes the table at its end by
`change`. Tables that are missing on the way are made, with the origin `made`. A path of dotted
keys may not pass through a table that has a header of its own. -/
def descend? (made : Origin) (change : Origin → Draft → Option Draft) :
    (path : List String) → Origin → Draft → Option Draft
  | [], origin, draft => change origin draft
  | key :: path, _, draft =>
    match draft.lookup key with
    | none => do
      let inner ← descend? made change path made []
      some (draft ++ [(key, .table made inner)])
    | some (.value _) => none
    | some (.table origin inner) =>
      if made = .dottedKey ∧ origin = .header then none
      else do
        let inner ← descend? made change path origin inner
        some (draft.replace key (.table origin inner))
    | some (.tables earlier last) => do
      let last ← descend? made change path .header last
      some (draft.replace key (.tables earlier last))

/-- Writes an entry at the end of a dotted key: `path` and then `key`. -/
def addEntry? (path : List String) (key : String) (value : Value) (origin : Origin)
    (draft : Draft) : Option Draft :=
  descend? .dottedKey (fun origin draft =>
    let dotted := origin = .dottedKey
    let plain := path.isEmpty = true
    if (dotted ↔ plain) ∨ (draft.lookup key).isSome then none
    else some (draft ++ [(key, .value value)])) path origin draft

def openTable? (key : String) (draft : Draft) : Option Draft :=
  match draft.lookup key with
  | none => some (draft ++ [(key, .table .header [])])
  | some (.table .longerHeader inner) => some (draft.replace key (.table .header inner))
  | some _ => none

def openElement? (key : String) (draft : Draft) : Option Draft :=
  match draft.lookup key with
  | none => some (draft ++ [(key, .tables [] [])])
  | some (.tables earlier last) => some (draft.replace key (.tables (last :: earlier) []))
  | some _ => none

end Draft

/-! ## The end of the document -/

mutual

def Node.finish : Node → Value
  | .value value => value
  | .table _ entries => .table (Draft.finish entries)
  | .tables earlier last =>
    match (Draft.finishAll earlier).reverse with
    | [] => .tables (Draft.finish last) []
    | first :: more => .tables first (more ++ [Draft.finish last])

def Draft.finish : List (String × Node) → Table
  | [] => []
  | (key, node) :: rest => (key, node.finish) :: Draft.finish rest

def Draft.finishAll : List (List (String × Node)) → List Table
  | [] => []
  | entries :: rest => Draft.finish entries :: Draft.finishAll rest

end

end EncryptThenMac.Toml
