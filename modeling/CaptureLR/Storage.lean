import CaptureLR.Parser

/-!
# Stored tables in files

A storage holds folders and the texts of files. A file can be written if its folder exists,
and read if it was written.
-/

namespace CaptureLR

/-- Folders, and the texts of the files in them. -/
structure Storage where
  folders : List String
  files : OrderedMap String String
deriving Inhabited

namespace Storage

/-- The folder of a path: what stands before its last slash. -/
def folderOf (path : String) : String :=
  String.ofList ((path.toList.reverse.dropWhile (· ≠ '/')).drop 1).reverse

/-- The text of a file. -/
def read (s : Storage) (path : String) : Except TableError String :=
  match s.files.get? path with
  | some text => .ok text
  | none => .error .io

/-- The storage with a file written. -/
def write (s : Storage) (path text : String) : Except TableError Storage :=
  if folderOf path ∈ s.folders then .ok { s with files := s.files.insert path text }
  else .error .io

/-- Whether there is a file. -/
def exists? (s : Storage) (path : String) : Bool := s.files.contains path

end Storage

/-- The storage with the table of a parser written to a file. -/
def Parser.save (p : Parser) (s : Storage) (path : String) : Except TableError Storage := do
  let record ← p.record
  s.write path record.text

/-- The stored table of a file. -/
def TableRecord.loadFrom (s : Storage) (path : String) : Except TableError TableRecord := do
  let text ← s.read path
  TableRecord.ofText text

end CaptureLR
