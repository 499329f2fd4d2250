/-
# Lisplet.Files -- files as a program sees them

A running program sees files only by reading them whole, as text.  `Files` is that view: what reading
each path gives.  `Disk` is a directory tree that gives one: files by the components of their paths
below a working directory, directories being what lies on the way to a file.
-/

import Lisplet.Error
import Lisplet.FiniteMap

namespace Lisplet

/-- What reading each path gives. -/
abbrev Files := String → Except FileFault String

/-- A tree of files below a working directory, by the components of their paths. -/
structure Disk where
  files : FiniteMap (List String) ByteArray := {}
deriving Inhabited

/-- What a path names. -/
inductive Place where
  /-- A directory below the working directory, by its components. -/
  | directory (components : List String)
  | file (components : List String) (content : ByteArray)
  /-- A directory outside the working directory. -/
  | outside

namespace Disk

/-- The most bytes that a component of a path may have. -/
def maxName : Nat := 255

/-- The most bytes that a path may have. -/
def maxPath : Nat := 4095

def isDirectory (disk : Disk) (components : List String) : Bool :=
  components.isEmpty || disk.files.entries.any fun e =>
    e.1.length > components.length && e.1.take components.length == components

/-- Follow the components of a path from a directory. -/
def follow (disk : Disk) : Place → List String → Except FileFault Place
  | place, [] => .ok place
  | .file .., _ :: _ => .error .notDirectory
  | .outside, name :: rest =>
    if name = "" || name = "." || name = ".." then follow disk .outside rest
    else if maxName < name.utf8ByteSize then .error .nameTooLong
    else .error .notFound
  | .directory components, name :: rest =>
    if name = "" || name = "." then follow disk (.directory components) rest
    else if name = ".." then
      follow disk (if components.isEmpty then .outside else .directory components.dropLast) rest
    else if maxName < name.utf8ByteSize then .error .nameTooLong
    else
      let components := components ++ [name]
      match disk.files.find? components with
      | some content => follow disk (.file components content) rest
      | none =>
        if disk.isDirectory components then follow disk (.directory components) rest
        else .error .notFound

/-- What a path names. -/
def resolve (disk : Disk) (path : String) : Except FileFault Place :=
  if path.toList.contains '\x00' then .error .nulInPath
  else if path = "" then .error .notFound
  else if maxPath < path.utf8ByteSize then .error .nameTooLong
  else if path.startsWith "/" then disk.follow .outside (path.splitOn "/")
  else disk.follow (.directory []) (path.splitOn "/")

/-- Read a file as text. -/
def read (disk : Disk) : Files := fun path =>
  match disk.resolve path with
  | .error fault => .error fault
  | .ok (.file _ content) =>
    match String.fromUTF8? content with
    | some text => .ok text
    | none => .error .invalidEncoding
  | .ok _ => .error .isDirectory

/-- The components of a plain relative path. -/
def componentsOf (path : String) : List String :=
  (path.splitOn "/").filter fun name => name != "" && name != "."

/-- Put a file in its place, with the directories on the way to it. -/
def put (disk : Disk) (path : String) (content : ByteArray) : Disk :=
  ⟨disk.files.insert (componentsOf path) content⟩

/-- Write a file as a program does: its directory has to exist. -/
def write (disk : Disk) (path : String) (content : ByteArray) : Except FileFault Disk :=
  match disk.resolve path with
  | .ok (.file components _) => .ok ⟨disk.files.insert components content⟩
  | .ok _ => .error .isDirectory
  | .error .notFound =>
    let names := path.splitOn "/"
    match names.getLast? with
    | none | some "" => .error .notFound
    | some name =>
      if path.startsWith "/" then .error .notFound
      else match disk.follow (.directory []) names.dropLast with
        | .ok (.directory components) => .ok ⟨disk.files.insert (components ++ [name]) content⟩
        | .ok _ => .error .notFound
        | .error fault => .error fault
  | .error fault => .error fault

/-- Does the path name a file or a directory? -/
def contains (disk : Disk) (path : String) : Bool :=
  match disk.resolve path with
  | .ok _ => true
  | .error _ => false

end Disk

end Lisplet
