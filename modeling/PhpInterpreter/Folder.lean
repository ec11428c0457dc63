import PhpInterpreter.Text.Basic

/-!
Paths, and what they lead to in a folder of files.
-/

namespace PhpInterpreter

/-- A path: the root it starts from, empty if it starts from the folder, and the names on the
way. -/
structure Path where
  root : String
  steps : List String
deriving DecidableEq, Inhabited

namespace Path

/-- Reads a path. Empty names and points are no steps; exactly two leading slashes are a root of
their own. -/
def ofText (text : String) : Path :=
  let root := match text.toList.takeWhile (· == '/') with
    | [] => ""
    | ['/', '/'] => "//"
    | _ => "/"
  ⟨root, (text.splitOn "/").filter fun s => s != "" && s != "."⟩

/-- The text of a path; the path without steps is a point. -/
def text (p : Path) : String :=
  if p.root == "" && p.steps.isEmpty then "." else p.root ++ Text.join "/" p.steps

end Path

/-- What a path leads to. -/
inductive Lookup
  | absent
  | file (contents : String)
  | folder
  /-- The path, or a name on the way, is longer than it can be. -/
  | overlong
deriving DecidableEq, Inhabited

/-- The files in a folder, by path. -/
abbrev Folder : Type := List (String × String)

namespace Folder

/-- The longest name and the longest path, in bytes. -/
def nameLimit : Nat := 255

def pathLimit : Nat := 4095

/-- What is at the end of these names. A folder is there if it is on the way to a file. -/
def entry (files : Folder) (names : List String) : Lookup :=
  match files.find? fun f => (Path.ofText f.1).steps == names with
  | some (_, contents) => .file contents
  | none =>
    if names.isEmpty || files.any fun f => names.isPrefixOf (Path.ofText f.1).steps then .folder
    else .absent

/-- Follows steps outside the folder. Nothing is known there but the folders above. -/
def followOutside : List String → Lookup
  | [] => .folder
  | s :: rest =>
    if s == ".." then followOutside rest
    else if nameLimit < s.utf8ByteSize then .overlong
    else .absent

/-- Follows steps from where the names lead. Only a folder can be left for another place. -/
def follow (files : Folder) (names : List String) : List String → Lookup
  | [] => files.entry names
  | s :: rest =>
    match files.entry names with
    | .folder =>
      if s == ".." then
        if names.isEmpty then followOutside rest else follow files names.dropLast rest
      else if nameLimit < s.utf8ByteSize then .overlong
      else follow files (names ++ [s]) rest
    | _ => .absent

/-- Looks up a path in the folder. -/
def find (files : Folder) (text : String) : Lookup :=
  let path := Path.ofText text
  if text.toList.contains '\x00' then .absent
  else if pathLimit < path.text.utf8ByteSize then .overlong
  else if path.root == "" then files.follow [] path.steps
  else followOutside path.steps

end Folder

end PhpInterpreter
