import KeywordConfig.CommandLine

namespace KeywordConfig.CommandLine

abbrev Directory := Keyed String

-- Where the names of a path are counted from.
inductive Base where
  | here | above | root
deriving DecidableEq, Repr

structure Place where
  base : Base
  names : List String := []
deriving DecidableEq, Repr

namespace Place

-- What is above the directory stays one place, however far up; the root is its own parent.
def parent (p : Place) : Place :=
  match p.base, p.names with
  | .here, [] => { base := .above }
  | base, names => { base, names := names.dropLast }

def child (p : Place) (name : String) : Place := { p with names := p.names ++ [name] }

def maxName : Nat := 255

-- The place that a name leads to from a directory, be there something or not.
def step (p : Place) (name : String) : Except FileError Place :=
  if name = "." then .ok p
  else if name = ".." then .ok p.parent
  else if name.utf8ByteSize > maxName then .error .nameTooLong
  else .ok (p.child name)

end Place

-- A path as the names on it, the last of them apart. Slashes separate names, and those at the end
-- ask for a directory.
structure Route where
  start : Place
  through : List String
  last : Option String
  endsOpen : Bool

namespace Route

def maxPath : Nat := 4095

def names (path : String) : List String := ((path.toList.splitOn '/').map String.ofList).filter (· ≠ "")

def ofPath (path : String) : Except FileError Route :=
  if path.utf8ByteSize > maxPath then .error .nameTooLong
  else
    let names := names path
    .ok {
      start := { base := if path.startsWith "/" then .root else .here }
      through := names.dropLast
      last := names.getLast?
      endsOpen := path.endsWith "/" }

end Route

inductive Node where
  | file (content : String)
  | directory
  | missing

namespace Directory

def entry? (d : Directory) (names : List String) : Option (String × String) :=
  d.find? fun file => Route.names file.1 == names

def holds (d : Directory) (names : List String) : Bool :=
  names.isEmpty || d.any fun file => names.isPrefixOf (Route.names file.1)

def node (d : Directory) (p : Place) : Node :=
  match p.base, p.names with
  | .here, names =>
      match d.entry? names with
      | some (_, content) => .file content
      | none => if d.holds names then .directory else .missing
  | .above, [] => .directory
  | .root, [] => .directory
  | .root, ["dev"] => .directory
  | .root, ["tmp"] => .directory
  | .root, ["dev", "null"] => .file ""
  | _, _ => .missing

def walk (d : Directory) : Place → List String → Except FileError Place
  | p, [] => .ok p
  | p, name :: rest =>
      match p.step name with
      | .error e => .error e
      | .ok next =>
          match d.node next with
          | .directory => walk d next rest
          | .file _ => .error .notDirectory
          | .missing => .error .notFound

def readFile (path : String) (d : Directory) : Except FileError String := do
  let route ← Route.ofPath path
  let p ← d.walk route.start route.through
  let p ← route.last.elim (.ok p) p.step
  match d.node p with
  | .directory => .error .isDirectory
  | .missing => .error .notFound
  | .file content => if route.endsOpen then .error .notDirectory else .ok content

-- Where a file may be written. A path that asks for a directory is refused, whatever is there.
def target (path : String) (d : Directory) : Except FileError Place := do
  let route ← Route.ofPath path
  let p ← d.walk route.start route.through
  if route.endsOpen then .error .isDirectory
  else
    let p ← route.last.elim (.ok p) p.step
    match d.node p with
    | .directory => .error .isDirectory
    | .missing => .ok p
    | .file _ => .ok p

def put (p : Place) (content : String) (d : Directory) : Directory :=
  match p.base with
  | .here => Keyed.insert d (((d.entry? p.names).map Prod.fst).getD ("/".intercalate p.names)) content
  | _ => d

def writeFile (path content : String) (d : Directory) : Except FileError Unit × Directory :=
  match d.target path with
  | .ok p => (.ok (), d.put p content)
  | .error e => (.error e, d)

def host : Host (StateM Directory) where
  read path := return (← get).readFile path
  write path content := modifyGet (writeFile path content)
  complaint _ := "syntax error"

-- The files that are new in a directory or have changed.
def changes (before after : Directory) : Directory :=
  after.filter (· ∉ before)

end Directory

end KeywordConfig.CommandLine
