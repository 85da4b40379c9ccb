import OperandCodec.Text.Pieces
/-!
# Files

The folders and files that a program can see, and what a path leads to. A
path is followed name by name (`Location.enter`), each name looked up in
the folder that the names before it lead to, so the first name at which
this fails decides the error. Of what lies outside the working folder only
what every system has is known (`FileTree.systemEntries`).
-/

namespace OperandCodec

/-- Why a file cannot be read as text. -/
inductive FileError where
  | missing
  | folder
  | notFolder
  | nameTooLong
  | nulInPath
  | notText
  | other (text : String)
deriving DecidableEq, Repr

/-- The wording of a file error. -/
def FileError.message : FileError → String
  | missing => "No such file or directory (os error 2)"
  | folder => "Is a directory (os error 21)"
  | notFolder => "Not a directory (os error 20)"
  | nameTooLong => "File name too long (os error 36)"
  | nulInPath => "file name contained an unexpected NUL byte"
  | notText => "stream did not contain valid UTF-8"
  | other text => text

/-- A tree of folders and files, each by the names that lead to it from the root. A folder has no
content; it is there if it is listed or something is listed under it. Relative paths begin at the
working folder. -/
structure FileTree where
  entries : List (List (List Char) × Option ByteArray)
  working : List (List Char)

/-- Where a path leads: to a folder or to a file. -/
inductive Location where
  | folder (names : List (List Char))
  | file (content : ByteArray)

/-- The largest number of bytes in a name. -/
def maxNameBytes : Nat := 255

/-- The largest number of bytes in a path. -/
def maxPathBytes : Nat := 4095

/-- Goes on from a location by a name. No name and a single dot stay in a folder; two dots lead to
the folder that it lies in, and from the root to the root. -/
def Location.enter (tree : FileTree) (here : Location) (name : List Char) :
    Except FileError Location :=
  match here with
  | file _ => .error .notFolder
  | folder names =>
    if name = [] ∨ name = ['.'] then .ok here
    else if name = ['.', '.'] then .ok (folder names.dropLast)
    else if maxNameBytes < (String.ofList name).utf8ByteSize then .error .nameTooLong
    else
      let names := names ++ [name]
      match tree.entries.lookup names with
      | some (some content) => .ok (file content)
      | some none => .ok (folder names)
      | none =>
        if tree.entries.any fun (path, _) => names.isPrefixOf path then .ok (folder names)
        else .error .missing

namespace FileTree

/-- The names in a path, without those that stay in a folder. -/
def names (path : String) : List (List Char) :=
  (Text.pieces '/' path.toList).filter fun name => name ≠ [] ∧ name ≠ ['.']

/-- The folders that every system has. -/
def systemFolders : List String :=
  ["bin", "boot", "dev", "etc", "home", "lib", "media", "mnt", "opt", "proc", "run", "sbin", "srv",
   "sys", "tmp", "usr", "var"]

/-- What every system has: its folders, and the null device, a file without content. -/
def systemEntries : List (List (List Char) × Option ByteArray) :=
  (names "dev/null", some .empty) :: systemFolders.map fun path => (names path, none)

/-- The tree in which the working folder lies in the folder `above` and holds the given files, by
their relative paths. The working folder has the empty name, which no path can spell: a path can
lead out of it, but not back into it. -/
def ofList (above : String) (files : List (String × ByteArray)) : FileTree :=
  let working := names above ++ [[]]
  { entries := systemEntries ++
      files.map fun (path, content) => (working ++ names path, some content)
    working }

/-- Where a path leads. -/
def follow (tree : FileTree) (path : String) : Except FileError Location :=
  let s := path.toList
  if '\x00' ∈ s then .error .nulInPath
  else if maxPathBytes < path.utf8ByteSize then .error .nameTooLong
  else match s with
    | [] => .error .missing
    | '/' :: s => (Text.pieces '/' s).foldlM (Location.enter tree) (.folder [])
    | s => (Text.pieces '/' s).foldlM (Location.enter tree) (.folder tree.working)

/-- The text of the file that a path leads to. -/
def read (tree : FileTree) (path : String) : Except FileError String := do
  match ← tree.follow path with
  | .folder _ => .error .folder
  | .file content =>
    match String.fromUTF8? content with
    | some text => .ok text
    | none => .error .notText

/-- A slash behind a file asks for a folder; a folder has no text; names are not looked up in a
file; the first name that is not there decides; what lies above the root is the root. -/
example : let tree := ofList "tmp" [("a", .empty)]
    tree.read "a/" = .error .notFolder ∧ tree.read "./." = .error .folder ∧
      tree.read "a/b" = .error .notFolder ∧ tree.read "b/../a" = .error .missing ∧
      tree.read "/../tmp/.." = .error .folder ∧ tree.read "../a" = .error .missing := by
  refine ⟨?_, ?_, ?_, ?_, ?_, ?_⟩ <;> cbv

end FileTree
end OperandCodec
