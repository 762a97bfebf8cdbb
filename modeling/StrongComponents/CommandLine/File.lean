import StrongComponents.Text.Pieces

/-!
# Files

A `Disk` holds files, folders and null devices by their paths from the root folder, and knows
the folder that the program works in. A path is given as a text with slashes and is looked up
name by name, from the root if it begins with a slash and else from the working folder; two
dots lead to the folder above, which for the root is the root itself. There are no links.
Reading and writing fail as the operating system would have them fail. A null device takes what
is written to it and keeps nothing.
-/

set_option autoImplicit false

namespace StrongComponents

/-- Why a file cannot be read or written. -/
inductive FileError where
  | notFound
  | isFolder
  | notFolder
  /-- A name or the whole path is longer than the system allows. -/
  | nameTooLong
  /-- The path has a null character, which no path can have. -/
  | nullInPath
  /-- The file is not a text. -/
  | notText
  /-- Any other reason, in the words of the operating system. -/
  | other (reason : String)
deriving DecidableEq

/-- The wording of each reason. -/
def FileError.message : FileError → String
  | notFound => "No such file or directory (os error 2)"
  | isFolder => "Is a directory (os error 21)"
  | notFolder => "Not a directory (os error 20)"
  | nameTooLong => "File name too long (os error 36)"
  | nullInPath => "file name contained an unexpected NUL byte"
  | notText => "stream did not contain valid UTF-8"
  | other reason => reason

/-- The text of a file. -/
def decodeText (content : ByteArray) : Except FileError String :=
  match String.fromUTF8? content with
  | some text => .ok text
  | none => .error .notText

/-- The names on the way from the root folder to a file or folder. -/
abbrev Path := List String

namespace Path

/-- The name of the folder above. -/
def parentName : String := ".."

/-- The folder above the one at a path. The root folder is above itself. -/
def parent (path : Path) : Path := path.dropLast

/-- The names in a text, which are separated by slashes. -/
def names (text : String) : List String := (Text.pieces (· == '/') text.toList).map String.ofList

/-- The path of a text that goes down only. -/
def ofText (text : String) : Path := (names text).filter fun name => name != "" && name != "."

/-- Bytes that a name has at most. -/
def maxNameBytes : Nat := 255

/-- Bytes that the text of a path has at most. -/
def maxTextBytes : Nat := 4095

end Path

/-- What there is below the root folder, which itself has the empty path, and the working folder. -/
structure Disk where
  files : List (Path × ByteArray)
  folders : List Path
  nullDevices : List Path
  working : Path

namespace Disk

/-- A root folder with nothing in it. -/
def empty : Disk := ⟨[], [], [], []⟩

/-- Whether there is a folder with that path. -/
def isFolder (d : Disk) (path : Path) : Bool := path.isEmpty || d.folders.contains path

/-- Whether there is a null device with that path. -/
def isNullDevice (d : Disk) (path : Path) : Bool := d.nullDevices.contains path

/-- The content of the file with that path. Nothing is ever found in a null device. -/
def content? (d : Disk) (path : Path) : Option ByteArray :=
  if d.isNullDevice path then some .empty else d.files.lookup path

/-- Fails on a name that no file or folder can have. -/
def checkName (name : String) : Except FileError Unit :=
  if Path.maxNameBytes < name.utf8ByteSize then .error .nameTooLong else .ok ()

/-- Fails on a text that no path can be. This is found out before anything is looked up. -/
def checkText (text : String) : Except FileError Unit :=
  if text.toList.contains '\x00' then .error .nullInPath
  else if text = "" then .error .notFound
  else if Path.maxTextBytes < text.utf8ByteSize then .error .nameTooLong
  else .ok ()

/-- Goes from a folder into the folder called `name`. -/
def enter (d : Disk) (folder : Path) (name : String) : Except FileError Path := do
  if name = "" ∨ name = "." then return folder
  if name = Path.parentName then return folder.parent
  checkName name
  if d.isFolder (folder ++ [name]) then return folder ++ [name]
  throw (if (d.content? (folder ++ [name])).isSome then .notFolder else .notFound)

/-- The folder that a path starts from. -/
def start (d : Disk) (text : String) : Path :=
  if text.toList.head? = some '/' then [] else d.working

/-- The folder of a path and the last name in it. -/
def locate (d : Disk) (text : String) : Except FileError (Path × String) := do
  let names := Path.names text
  let folder ← names.dropLast.foldlM d.enter (d.start text)
  return (folder, names.getLast?.getD "")

/-- Whether the last name of a path stands for a folder whatever the disk holds. -/
def namesFolder (name : String) : Bool := name == "" || name == "." || name == Path.parentName

/-- The content of the file at a path. -/
def read (d : Disk) (text : String) : Except FileError ByteArray := do
  checkText text
  let (folder, name) ← d.locate text
  if namesFolder name then throw .isFolder
  checkName name
  match d.content? (folder ++ [name]) with
  | some content => return content
  | none => throw (if d.isFolder (folder ++ [name]) then .isFolder else .notFound)

/-- Sets the content of the file with that path. -/
def set (d : Disk) (path : Path) (content : ByteArray) : Disk :=
  { d with files := (path, content) :: d.files.filter (·.1 != path) }

/-- A text without the slashes at its end. -/
def withoutFinalSlashes (text : String) : String :=
  String.ofList (text.toList.reverse.dropWhile (· == '/')).reverse

/-- Writes the file at a path, which replaces what was there; a null device stays as it is. A path
with a slash at its end asks for a folder, whatever its last name is. -/
def write (d : Disk) (text : String) (content : ByteArray) : Except FileError Disk := do
  checkText text
  let (folder, name) ← d.locate (withoutFinalSlashes text)
  if namesFolder name ∨ withoutFinalSlashes text ≠ text then throw .isFolder
  checkName name
  if d.isFolder (folder ++ [name]) then throw .isFolder
  return if d.isNullDevice (folder ++ [name]) then d else d.set (folder ++ [name]) content

/-- Adds a folder and the folders on the way to it. -/
def addFolder (d : Disk) (path : Path) : Disk :=
  { d with folders := d.folders ++ (List.range path.length).map fun n => path.take (n + 1) }

/-- Adds a file and the folders on the way to it. -/
def addFile (d : Disk) (path : Path) (content : ByteArray) : Disk :=
  (d.addFolder path.dropLast).set path content

/-- The disk with a working folder, which is added with the folders on the way to it. -/
def workingIn (d : Disk) (path : Path) : Disk := { d.addFolder path with working := path }

end Disk

end StrongComponents
