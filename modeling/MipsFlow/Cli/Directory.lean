import MipsFlow.Cli.Host

/-!
# A directory in memory

Surroundings of a run that exist only in memory: the current directory with its files, and around it
what every system has. A path is followed name by name, and every place on the way has to be a
directory. Nothing is known of the directories above the current one but that they are there; what
is written outside the current directory is not kept.
-/

namespace MipsFlow.Cli

/-! ## Places -/

/-- Where the names of a place count from. -/
inductive Base where
  /-- The current directory. -/
  | current
  /-- The directory so many levels above the parent of the current directory. -/
  | above (levels : Nat)
  /-- The root of the system. -/
  | root
deriving DecidableEq, Repr

/-- A place that a path can lead to; there need not be anything. -/
structure Place where
  base : Base
  names : List String := []
deriving DecidableEq, Repr

namespace Place

/-- The place of a name in a directory. -/
def child (p : Place) (name : String) : Place := { p with names := p.names ++ [name] }

/-- The directory above a place. The root is its own parent. -/
def parent (p : Place) : Place :=
  if p.names.isEmpty then
    match p.base with
    | .current => ⟨.above 0, []⟩
    | .above levels => ⟨.above (levels + 1), []⟩
    | .root => p
  else { p with names := p.names.dropLast }

end Place

/-- A file of the system that is not stored. -/
inductive Device where
  /-- Empty, and stays so. -/
  | null
  /-- The standard output. -/
  | output
  /-- The standard error output. -/
  | errors
deriving DecidableEq, Repr

/-- What is at a place. -/
inductive Node where
  | directory
  | file (content : String)
  | device (device : Device)
deriving DecidableEq, Repr

/-- The directories right below the root. -/
def systemDirectories : List String :=
  ["bin", "dev", "etc", "home", "lib", "proc", "root", "sys", "tmp", "usr", "var"]

/-- What the system has at a place, by the names from the root on. The standard input is empty. -/
def systemNode? : List String → Option Node
  | [] => some .directory
  | [name] => if systemDirectories.contains name then some .directory else none
  | ["dev", "null"] => some (.device .null)
  | ["dev", "stdin"] => some (.device .null)
  | ["dev", "stdout"] => some (.device .output)
  | ["dev", "stderr"] => some (.device .errors)
  | _ => none

/-! ## Paths -/

/-- The greatest number of bytes of a path. -/
def maxPathSize : Nat := 4095

/-- The greatest number of bytes of a name. -/
def maxNameSize : Nat := 255

/-- The names of a path. Empty ones stand beside a slash that follows another, or has nothing
before or behind it. -/
def namesOf (path : String) : List String := path.splitOn "/"

/-- Where a path begins. -/
def startOf (path : String) : Except PathError Place :=
  if maxPathSize < path.utf8ByteSize then .error .tooLong
  else
    match path.toList with
    | [] => .error .missing
    | c :: _ => .ok ⟨if c = '/' then .root else .current, []⟩

/-! ## The directory -/

/-- A directory, an environment, and what has been written to the two outputs. -/
structure Directory where
  files : List (String × String)
  environment : List (String × String) := []
  stdout : String := ""
  stderr : String := ""
deriving DecidableEq, Repr

namespace Directory

/-- The names that lead to a file of the directory. -/
def fileNames (path : String) : List String :=
  (namesOf path).filter fun name => name ≠ "" && name ≠ "."

/-- What is at some names below the current directory: a file, or a directory that leads to one. -/
def storedNode? (s : Directory) (names : List String) : Option Node :=
  match s.files.find? fun (name, _) => fileNames name = names with
  | some (_, content) => some (.file content)
  | none =>
    if names.isEmpty || s.files.any fun (name, _) => names.isPrefixOf (fileNames name) then
      some .directory
    else none

/-- What is at a place. -/
def node? (s : Directory) (p : Place) : Option Node :=
  match p.base with
  | .current => s.storedNode? p.names
  | .above _ => if p.names.isEmpty then some .directory else none
  | .root => systemNode? p.names

/-- Follows names from a place on. There need not be anything at the place where they end. -/
def follow (s : Directory) : Place → List String → Except PathError Place
  | p, [] => .ok p
  | p, name :: rest =>
    match s.node? p with
    | none => .error .missing
    | some .directory =>
      if name = "" ∨ name = "." then s.follow p rest
      else if name = ".." then s.follow p.parent rest
      else if maxNameSize < name.utf8ByteSize then .error .tooLong
      else s.follow (p.child name) rest
    | some _ => .error .notDirectory

/-- What is at the end of a path. -/
def find (s : Directory) (path : String) : Except PathError Node := do
  let start ← startOf path
  match s.node? (← s.follow start (namesOf path)) with
  | some node => return node
  | none => throw .missing

/-- Reads a file. A directory can be opened, but not read. -/
def read (s : Directory) (path : String) : Except String String :=
  match s.find path with
  | .ok .directory => .error (PathError.isDirectory.report "read" path)
  | .ok (.file content) => .ok content
  | .ok (.device _) => .ok ""
  | .error e => .error (e.report "open" path)

/-- The place of a file to write: a name in a directory that exists. A path that ends in a slash,
or in a name for the directory itself or its parent, is not a file's. -/
def target (s : Directory) (path : String) : Except PathError Place := do
  let start ← startOf path
  let names := ((namesOf path).reverse.dropWhile (· = "")).reverse
  let directory ← s.follow start (names.dropLast ++ ["."])
  match names.getLast? with
  | none => throw .isDirectory
  | some name =>
    if name = "." ∨ name = ".." ∨ path.endsWith "/" then throw .isDirectory
    s.follow directory [name]

/-- Stores the content of a file. -/
def store (s : Directory) (names : List String) (content : String) : Directory :=
  if s.files.any fun (name, _) => fileNames name = names then
    { s with files := s.files.map fun (name, old) =>
      (name, if fileNames name = names then content else old) }
  else { s with files := s.files ++ [("/".intercalate names, content)] }

/-- Writes to the standard output. -/
def print (s : Directory) (text : String) : Directory := { s with stdout := s.stdout ++ text }

/-- Writes to the standard error output. -/
def report (s : Directory) (text : String) : Directory := { s with stderr := s.stderr ++ text }

/-- Writes to a place that is not a directory. -/
def writeAt (s : Directory) (p : Place) (content : String) : Except PathError Directory :=
  match s.node? p with
  | some .directory => .error .isDirectory
  | some (.device .null) => .ok s
  | some (.device .output) => .ok (s.print content)
  | some (.device .errors) => .ok (s.report content)
  | some (.file _) | none => .ok (if p.base = .current then s.store p.names content else s)

/-- Writes a file. -/
def write (s : Directory) (path content : String) : Except String Directory :=
  match (s.target path).bind (s.writeAt · content) with
  | .ok s => .ok s
  | .error e => .error (e.report "open" path)

/-- The directory as the surroundings of a run; durations are not measured. -/
def host : Host (StateM Directory) where
  environment key := do return ((← get).environment.lookup key).getD ""
  readFile path := do return (← get).read path
  writeFile path content := do
    match (← get).write path content with
    | .ok s => set s; return .ok ()
    | .error reason => return .error reason
  print text := modify (·.print text)
  report text := modify (·.report text)
  elapsed := return "<time>"

end Directory

end MipsFlow.Cli
