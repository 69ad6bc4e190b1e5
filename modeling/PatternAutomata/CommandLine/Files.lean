/-!
# Files

Commands read texts from files and from the standard input, and write files.  They do so through a
host, which is the system they run on or a directory held in memory.
-/

namespace PatternAutomata.CommandLine

/-- Why a file cannot be read or written. -/
inductive FileError where
  | missing
  | isDirectory
  | notDirectory
  | nameTooLong
  | denied
  | notText
  | other (message : String)
deriving DecidableEq, Repr

def FileError.message : FileError → String
  | missing => "No such file or directory (os error 2)"
  | isDirectory => "Is a directory (os error 21)"
  | notDirectory => "Not a directory (os error 20)"
  | nameTooLong => "File name too long (os error 36)"
  | denied => "Permission denied (os error 13)"
  | notText => "stream did not contain valid UTF-8"
  | other message => message

/-- What a command needs of the system it runs on. -/
structure Host (m : Type → Type) where
  readFile : String → m (Except FileError String)
  /-- Reads what is left of the standard input. -/
  readInput : m (Except FileError String)
  writeFile : String → String → m (Except FileError Unit)
  /-- Whether the output is shown on a terminal. -/
  onTerminal : m Bool

/-! ### A directory in memory -/

/-- Files by their paths, what is left of the standard input, and what was written to the devices of
the two outputs. -/
structure Directory where
  files : List (String × ByteArray)
  input : ByteArray
  output : ByteArray := .empty
  errors : ByteArray := .empty

/-- The devices of the system. -/
inductive Device where
  | null   -- empty, and forgets what is written to it
  | input  -- the standard input
  | output -- the standard output
  | errors -- the standard error
deriving DecidableEq, Repr

/-- What stands at a path. -/
inductive Entry where
  | file (path : String) -- there is a file in the directory, or there could be one
  | elsewhere            -- there could be a file outside of the directory
  | directory
  | device (device : Device)
  | blocked (cause : FileError)
deriving DecidableEq, Repr

def longestName : Nat := 255

def longestPath : Nat := 4095

/-! ### The system around the directory -/

def rootFolders : List String :=
  ["bin", "boot", "dev", "etc", "home", "lib", "media", "mnt", "opt", "proc", "root", "run", "sbin",
    "srv", "sys", "tmp", "usr", "var"]

def devices : List (String × Device) :=
  [("null", .null), ("stdin", .input), ("stdout", .output), ("stderr", .errors)]

/-- What stands at a name in a folder of the system, which is given by the names from the root
on. -/
def systemEntry (folder : List String) (name : String) : Entry :=
  match folder with
  | [] => if rootFolders.contains name then .directory else .elsewhere
  | ["dev"] =>
    match devices.lookup name with
    | some device => .device device
    | none => .elsewhere
  | _ => .elsewhere

/-- What stands at a path that ends in the given names below something that is missing.  If nothing
but empty names is left, the path names a folder that is missing. -/
def belowMissing (names : List String) : Entry :=
  if names.all (·.isEmpty) then .blocked .isDirectory else .blocked .missing

def followSystem (folder : List String) : List String → Entry
  | [] => .directory
  | name :: rest =>
    if name = "" || name = "." then followSystem folder rest
    else if name = ".." then followSystem folder.dropLast rest
    else if longestName < name.utf8ByteSize then .blocked .nameTooLong
    else
      match systemEntry folder name with
      | .directory => followSystem (folder ++ [name]) rest
      | .device device => if rest.isEmpty then .device device else .blocked .notDirectory
      | entry => if rest.isEmpty then entry else belowMissing rest

/-- Follows names from a folder on that holds the directory; what else it holds is not known. -/
def followOutside : List String → Entry
  | [] => .directory
  | name :: rest =>
    if name = "" || name = "." || name = ".." then followOutside rest
    else if longestName < name.utf8ByteSize then .blocked .nameTooLong
    else if rest.isEmpty then .elsewhere
    else belowMissing rest

namespace Directory

def content? (directory : Directory) (path : String) : Option ByteArray :=
  directory.files.lookup path

def isFolder (directory : Directory) (path : String) : Bool :=
  path.isEmpty || directory.files.any fun file => (path ++ "/").isPrefixOf file.1

def below (path name : String) : String :=
  if path.isEmpty then name else path ++ "/" ++ name

def parent (path : String) : Option String :=
  match (path.splitOn "/").reverse with
  | [] => none
  | _ :: outer => if path.isEmpty then none else some ("/".intercalate outer.reverse)

def follow (directory : Directory) (folder : String) : List String → Entry
  | [] => .directory
  | name :: rest =>
    if name = "" || name = "." then directory.follow folder rest
    else if name = ".." then
      match parent folder with
      | some outer => directory.follow outer rest
      | none => followOutside rest
    else if longestName < name.utf8ByteSize then .blocked .nameTooLong
    else
      let path := below folder name
      if directory.isFolder path then directory.follow path rest
      else if rest.isEmpty then .file path
      else if (directory.content? path).isSome then .blocked .notDirectory
      else belowMissing rest

def entry (directory : Directory) (path : String) : Entry :=
  if path.isEmpty then .blocked .missing
  else if longestPath < path.utf8ByteSize then .blocked .nameTooLong
  else
    let names := path.splitOn "/"
    if path.startsWith "/" then followSystem [] names else directory.follow "" names

def readInput (directory : Directory) : ByteArray × Directory :=
  (directory.input, { directory with input := .empty })

def readFile (directory : Directory) (path : String) : Except FileError (ByteArray × Directory) :=
  match directory.entry path with
  | .directory => .error .isDirectory
  | .blocked .isDirectory => .error .missing
  | .blocked cause => .error cause
  | .elsewhere => .error .missing
  | .device .input => .ok directory.readInput
  | .device _ => .ok (.empty, directory)
  | .file found =>
    match directory.content? found with
    | some content => .ok (content, directory)
    | none => .error .missing

def insert (path : String) (content : ByteArray) :
    List (String × ByteArray) → List (String × ByteArray)
  | [] => [(path, content)]
  | file :: files =>
    if file.1 = path then (path, content) :: files else file :: insert path content files

/-- Writes a file; one outside of the directory is not kept. -/
def writeFile (directory : Directory) (path : String) (content : ByteArray) :
    Except FileError Directory :=
  match directory.entry path with
  | .directory => .error .isDirectory
  | .blocked cause => .error cause
  | .device .output => .ok { directory with output := directory.output ++ content }
  | .device .errors => .ok { directory with errors := directory.errors ++ content }
  | .device _ | .elsewhere => .ok directory
  | .file found => .ok { directory with files := insert found content directory.files }

end Directory

def decodeText (bytes : ByteArray) : Except FileError String :=
  match String.fromUTF8? bytes with
  | some text => .ok text
  | none => .error .notText

/-- A directory in memory as a host; its output is not shown on a terminal. -/
def memoryHost : Host (StateM Directory) where
  readFile path := do
    match (← get).readFile path with
    | .ok (content, next) =>
      set next
      return decodeText content
    | .error cause => return .error cause
  readInput := do
    let (content, next) := (← get).readInput
    set next
    return decodeText content
  writeFile path text := do
    match (← get).writeFile path text.toUTF8 with
    | .ok next =>
      set next
      return .ok ()
    | .error cause => return .error cause
  onTerminal := return false

end PatternAutomata.CommandLine
