/-! # Files

What reading a file can see of a file system: the contents of files, and directories, which
are there too if a file is below them.  A path is walked name by name, and every name on the
way has to lead to a directory, also where two points take the walk back up.
-/
namespace TclHost.Host

inductive Entry where
  | file (bytes : ByteArray)
  | directory

/-- A file system: what is stored, under paths that name every place on the way. -/
abbrev Files := List (String × Entry)

inductive FileError where
  | notFound
  | notDirectory
  | isDirectory
  | nameTooLong
  /-- The path has a null character, which no path of a file system has. -/
  | nullInPath
  | invalidText
  deriving DecidableEq, Repr

def FileError.message : FileError → String
  | .notFound => "No such file or directory (os error 2)"
  | .notDirectory => "Not a directory (os error 20)"
  | .isDirectory => "Is a directory (os error 21)"
  | .nameTooLong => "File name too long (os error 36)"
  | .nullInPath => "file name contained an unexpected NUL byte"
  | .invalidText => "stream did not contain valid UTF-8"

/-- The length in bytes that a name may have. -/
def nameLimit : Nat := 255

/-- The length in bytes from which on a path is refused as a whole. -/
def pathLimit : Nat := 4096

def joinPath (base name : String) : String :=
  if base.endsWith "/" then base ++ name else base ++ "/" ++ name

/-- A name stays where the walk is: it is empty or a point. -/
def stays (name : String) : Bool :=
  name == "" || name == "."

def placeOf (path : String) : List String :=
  (path.splitOn "/").filter (!stays ·)

def Files.entryAt? (files : Files) (place : List String) : Option Entry :=
  match files.find? fun stored => placeOf stored.1 == place with
  | some (_, entry) => some entry
  | none =>
    if files.any fun stored => place.isPrefixOf (placeOf stored.1) then some .directory else none

/-- Go from a place to the place that a name leads to, which may be empty. -/
def Files.step (files : Files) (place : List String) (name : String) :
    Except FileError (List String) :=
  match files.entryAt? place with
  | none => .error .notFound
  | some (.file _) => .error .notDirectory
  | some .directory =>
    if stays name then .ok place
    else if name == ".." then .ok place.dropLast
    else if nameLimit < name.utf8ByteSize then .error .nameTooLong
    else .ok (place ++ [name])

def Files.find (files : Files) (path : String) : Except FileError Entry := do
  if path.toList.contains '\x00' then throw .nullInPath
  if pathLimit ≤ path.utf8ByteSize then throw .nameTooLong
  let place ← (path.splitOn "/").foldlM files.step []
  match files.entryAt? place with
  | none => throw .notFound
  | some entry => return entry

def Files.isFile (files : Files) (path : String) : Bool :=
  match files.find path with
  | .ok (.file _) => true
  | _ => false

def Files.read (files : Files) (path : String) : Except FileError String := do
  match ← files.find path with
  | .directory => throw .isDirectory
  | .file bytes =>
    match String.fromUTF8? bytes with
    | some text => return text
    | none => throw .invalidText

end TclHost.Host
