import TieredStore.Medium.Handle
import TieredStore.Medium.NameMap
import TieredStore.Medium.Path

/-!
# Folders of files

A folder leads from file names to objects.  Opening a file gives a handle that
knows the file's length at that time.  A folder holds plain files only; a path
that starts from it may lead out of it to a file elsewhere.
-/

namespace TieredStore

structure Folder where
  path : String
  made : Bool := false
  files : NameMap Nat := {}
  /-- The files in other folders that have been made by way of this one. -/
  elsewhere : List (Place × Nat) := []
  deriving Repr, DecidableEq

namespace Folder

def pathOf (folder : Folder) (name : String) : String := Path.join folder.path name

def sizes (folder : Folder) (objects : Objects) : List (String × Nat) :=
  folder.files.entries.map fun (name, object) => (name, (objects.getD object []).length)

/-! ## By name -/

def handle (folder : Folder) (name : String) (object : Nat) (objects : Objects) : Handle :=
  .file (folder.pathOf name) object (objects.getD object []).length

def openFile (folder : Folder) (name : String) (objects : Objects) : Except MediumError Handle :=
  match folder.files.get? name with
  | some object => .ok (folder.handle name object objects)
  | none => .error (.notFound (folder.pathOf name))

def makeFile (folder : Folder) (name : String) (objects : Objects) : Handle × Folder × Objects :=
  match folder.files.get? name with
  | some object => (folder.handle name object objects, folder, objects)
  | none =>
      (.file (folder.pathOf name) objects.length 0,
        { folder with made := true, files := folder.files.set name objects.length },
        objects ++ [[]])

/-! ## By path -/

def place (folder : Folder) : Place := Path.place folder.path

def object? (folder : Folder) : Place → Option Nat
  | [] => none
  | name :: above =>
      if above = folder.place then folder.files.get? name
      else folder.elsewhere.lookup (name :: above)

def tenant (folder : Folder) (others : List Place) (place : Place) : Option Tenant :=
  if (folder.place :: others).any place.isSuffixOf then some .folder
  else (folder.object? place).map fun _ => .file

def destination (folder : Folder) (path : String) : Destination :=
  Path.follow (folder.tenant []) (folder.pathOf path)

def isReachedBy (folder : Folder) (others : List String) (path : String) : Bool :=
  folder.made && path.startsWith "/" &&
    Path.follow (folder.tenant (others.map Path.place)) path = .folder folder.place

def settle (folder : Folder) (object : Nat) : Place → Folder
  | [] => folder
  | name :: above =>
      if above = folder.place then
        { folder with made := true, files := folder.files.set name object }
      else { folder with elsewhere := (name :: above, object) :: folder.elsewhere }

def attach (folder : Folder) (path : String) (objects : Objects) : Except MediumError Handle :=
  match folder.destination path with
  | .barred cause => .error cause
  | .folder _ => .error (.system "Is a directory")
  | .vacant _ => .error (.notFound (folder.pathOf path))
  | .nowhere => .error (.notFound (folder.pathOf path))
  | .file place =>
      match folder.object? place with
      | some object => .ok (folder.handle path object objects)
      | none => .error (.notFound (folder.pathOf path))

def create (folder : Folder) (path : String) (objects : Objects) :
    Except MediumError (Handle × Folder × Objects) :=
  match folder.destination path with
  | .barred cause => .error cause
  | .folder _ => .error (.system "Is a directory")
  | .nowhere => .error (.system "No such file or directory")
  | .vacant place =>
      .ok (.file (folder.pathOf path) objects.length 0, folder.settle objects.length place,
        objects ++ [[]])
  | .file place =>
      match folder.object? place with
      | some object => .ok (folder.handle path object objects, folder, objects)
      | none => .error (.system "No such file or directory")

end Folder
end TieredStore
