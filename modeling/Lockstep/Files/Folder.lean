/-!
Reading files by path. A folder is held in memory as the files in and below it, so that a run can
be described without a disk.
-/

set_option autoImplicit false
set_option relaxedAutoImplicit false

namespace Lockstep

inductive ReadFailure where
  | notFound
  | isDirectory
  | notADirectory
  | nameTooLong
  | nullInName
  | notText
  | other (message : String)
deriving DecidableEq, Repr

def ReadFailure.message : ReadFailure → String
  | notFound => "No such file or directory (os error 2)"
  | isDirectory => "Is a directory (os error 21)"
  | notADirectory => "Not a directory (os error 20)"
  | nameTooLong => "File name too long (os error 36)"
  | nullInName => "file name contained an unexpected NUL byte"
  | notText => "stream did not contain valid UTF-8"
  | other message => message

def textOfBytes (bytes : ByteArray) : Except ReadFailure String :=
  match String.fromUTF8? bytes with
  | some text => .ok text
  | none => .error .notText

def pathParts (path : String) : List String := path.splitOn "/"

def maxPartSize : Nat := 255

def maxPathSize : Nat := 4095

structure Folder where
  files : List (List String × ByteArray)

namespace Folder

def ofFiles (files : List (String × ByteArray)) : Folder :=
  ⟨files.map fun (path, bytes) => ((pathParts path).filter fun p => p != "" && p != ".", bytes)⟩

/-- Where a path has led to: to a file, or to a directory, which is the folder itself, one below it
or one of those `up` above it. -/
inductive Place where
  | file (bytes : ByteArray)
  | inside (names : List String)
  | outside (up : Nat)

/-- A file, or a directory with something in it, by its names. -/
def find (folder : Folder) (names : List String) : Except ReadFailure Place :=
  match folder.files.lookup names with
  | some bytes => .ok (.file bytes)
  | none =>
    if folder.files.any fun (path, _) => names.isPrefixOf path then .ok (.inside names)
    else .error .notFound

/-- Follow one part of a path. What lies outside the folder is not known. -/
def step (folder : Folder) (place : Place) (part : String) : Except ReadFailure Place :=
  match place with
  | .file _ => .error .notADirectory
  | .inside names =>
    if part = "" || part = "." then .ok place
    else if part = ".." then
      if names.isEmpty then .ok (.outside 0) else .ok (.inside names.dropLast)
    else if maxPartSize < part.utf8ByteSize then .error .nameTooLong
    else folder.find (names ++ [part])
  | .outside up =>
    if part = "" || part = "." then .ok place
    else if part = ".." then .ok (.outside (up + 1))
    else if maxPartSize < part.utf8ByteSize then .error .nameTooLong
    else .error .notFound

def readText (folder : Folder) (path : String) : Except ReadFailure String := do
  if path.toList.contains '\x00' then throw .nullInName
  if path = "" then throw .notFound
  if maxPathSize < path.utf8ByteSize then throw .nameTooLong
  let start := if path.startsWith "/" then Place.outside 0 else Place.inside []
  match ← (pathParts path).foldlM folder.step start with
  | .file bytes => textOfBytes bytes
  | _ => throw .isDirectory

end Folder

end Lockstep
