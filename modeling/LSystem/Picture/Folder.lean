import LSystem.Error
import LSystem.Picture.Path
import LSystem.Picture.Bitmap
import LSystem.Picture.Anymap

/-! # Saving pictures

The extension of the path decides the format, and is looked at before anything is created. Files are
created in a folder that holds files only, or in a folder around it.
-/

namespace LSystem

inductive PictureFormat where
  | bitmap
  | anymap
deriving DecidableEq, Repr

namespace PictureFormat

def ofExtension? (extension : String) : Option PictureFormat :=
  let e := String.ofList (extension.toList.map Char.toLower)
  if e = "bmp" then some bitmap
  else if e ∈ ["ppm", "pnm", "pgm", "pbm", "pam"] then some anymap
  else none

def ofPath (path : String) : Except WriteFault PictureFormat :=
  match Path.extension? path with
  | none => .error .noFormat
  | some e =>
    match ofExtension? e with
    | none => .error (.unknownFormat e)
    | some f => .ok f

def encode (c : Canvas) : PictureFormat → Except WriteFault ByteArray
  | bitmap => if Bitmap.fits c then .ok (Bitmap.encode c) else .error .badDimensions
  | anymap => .ok (Anymap.encode c)

end PictureFormat

structure Folder where
  files : List String

namespace Folder

/-- Follows names that have to be folders. The only folders there are, are those around the folder:
`inside` says that it has not been left, so that a name may be one of its files. -/
def follow (f : Folder) (inside : Bool) : List String → Except WriteFault Unit
  | [] => .ok ()
  | name :: rest =>
    if name = "." then f.follow inside rest
    else if name = ".." then f.follow false rest
    else if Path.maxNameBytes < name.utf8ByteSize then .error .longName
    else .error (if inside && name ∈ f.files then .fileAsFolder else .missingFolder)

def create (f : Folder) (path : String) : Except WriteFault Unit := do
  let names := Path.names path
  if path.contains '\x00' then throw .nulInPath
  if Path.maxPathBytes < path.utf8ByteSize then throw .longName
  f.follow true names.dropLast
  if path.endsWith "/" then throw .folderAsFile
  if names.any (Path.maxNameBytes < ·.utf8ByteSize) then throw .longName

def ofPaths (paths : List String) : Folder where
  files := paths.filterMap fun path =>
    match create ⟨[]⟩ path, (Path.names path).filter (· ≠ ".") with
    | .ok (), [name] => some name
    | _, _ => none

/-- The bytes of the file that a canvas is saved in. Faults of the path come before those of the
canvas. -/
def save (f : Folder) (path : String) (c : Canvas) : Except SketchError ByteArray :=
  let result : Except WriteFault ByteArray := do
    let format ← PictureFormat.ofPath path
    f.create path
    format.encode c
  result.mapError (.notWritten path)

end Folder

end LSystem
