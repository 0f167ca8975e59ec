import PageTemplate.Failure
import PageTemplate.Path

/-!
Files as a program sees them: what stands under a path, as far as it has been looked at. A file table is a
directory given by the files in it; a path is followed part by part, so that a part that is no
directory stops it.
-/

namespace PageTemplate

inductive FileFault where
  | missing
  /-- The path names a directory. -/
  | directory
  /-- The path leads through something that is not a directory. -/
  | obstructed
  | denied
  deriving DecidableEq, Repr, Inhabited

def FileFault.failure (path : Bytes) : FileFault → Failure
  | missing => .file (utf8 "open") path (utf8 "no such file or directory")
  | directory => .file (utf8 "read") path (utf8 "is a directory")
  | obstructed => .file (utf8 "open") path (utf8 "not a directory")
  | denied => .file (utf8 "open") path (utf8 "permission denied")

/-- What stands under each path that has been looked at. -/
abbrev Files := Bytes → Option (Except FileFault Bytes)

/-- The files of a directory by the parts of their paths. -/
structure FileTable where
  files : List (List Bytes × Bytes)
  deriving Inhabited

namespace FileTable

def ofPaths (files : Assoc Bytes) : FileTable :=
  ⟨files.map fun f => (Bytes.splitAt Byte.slash (Path.clean f.1), f.2)⟩

def hasDirectory (t : FileTable) (parts : List Bytes) : Bool :=
  parts.isEmpty || t.files.any fun f => parts.isPrefixOf f.1 && parts.length < f.1.length

def follow (t : FileTable) : Option (List Bytes) → List Bytes → Except FileFault Bytes
  | _, [] => .error .directory
  | place, part :: rest =>
    if part.isEmpty || part = Path.here then t.follow place rest
    else
      match place with
      | none => if part = Path.up then t.follow none rest else .error .missing
      | some parts =>
        if part = Path.up then t.follow (if parts.isEmpty then none else some parts.dropLast) rest
        else if t.hasDirectory (parts ++ [part]) then t.follow (some (parts ++ [part])) rest
        else
          match List.lookup (parts ++ [part]) t.files with
          | some text => if rest.isEmpty then .ok text else .error .obstructed
          | none => .error .missing

def read (t : FileTable) (path : Bytes) : Except FileFault Bytes :=
  if path.isEmpty then .error .missing
  else t.follow (if path.head? = some Byte.slash then none else some []) (Bytes.splitAt Byte.slash path)

end FileTable

end PageTemplate
