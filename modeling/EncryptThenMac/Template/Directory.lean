import EncryptThenMac.Template

/-!
# Templates in a directory

A configuration lives in a file of a fixed name in a directory. A directory that is not there,
and one without such a file, mean the same as an empty configuration. Whatever has the name but
cannot be read as a configuration is an error and never the default: a directory in its place,
bytes that are no UTF-8 text, or a text with a fault. The fault of a text is reported with the
path of the file in front, and is otherwise what reading the text alone reports (`load_file`).
-/

namespace EncryptThenMac

inductive Directory.Entry where
  | file (content : Bytes)
  | directory

/-- A directory, as far as its entries can be seen. -/
inductive Directory where
  | absent
  | present (entries : List (String × Directory.Entry))

def Directory.entry? : Directory → String → Option Directory.Entry
  | absent, _ => none
  | present entries, name => entries.lookup name

def textOfUtf8? (bytes : Bytes) : Option String :=
  String.fromUTF8? ⟨bytes.toArray⟩

namespace Template

def fileName : String :=
  "aead-cbc-hmac.toml"

/-- The path of the file in the directory of a path. -/
def filePath (path : String) : String :=
  match path.toList.getLast? with
  | none => fileName
  | some '/' => path ++ fileName
  | some _ => path ++ "/" ++ fileName

def load (path : String) (directory : Directory) : Except Error Template :=
  match directory.entry? fileName with
  | none => .ok default
  | some .directory => .error (.file .isDirectory)
  | some (.file content) =>
    match textOfUtf8? content with
    | none => .error (.file .notUtf8)
    | some text => (read text).mapError fun fault => .config (.inFile (filePath path) fault)

/-- A file is read like its text, with the path in front of a fault. -/
theorem load_file {path text : String} {directory : Directory} {content : Bytes}
    (h : directory.entry? fileName = some (.file content)) (hc : textOfUtf8? content = some text) :
    load path directory =
      (read text).mapError fun fault => .config (.inFile (filePath path) fault) := by
  simp [load, h, hc]

end Template

end EncryptThenMac
