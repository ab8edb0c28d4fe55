import Polysynth.FileSystem

namespace Polysynth

abbrev Place : Type := List String

inductive Node where
  | folder
  | file (contents : ByteArray)
  /-- Reads as an empty file and keeps nothing that is written to it. -/
  | null

structure Disk where
  nodes : List (Place × Node)
  /-- The working folder, where relative paths start. -/
  here : Place

namespace Disk

-- Names and paths take at most this many bytes.
def maxName : Nat := 255
def maxPath : Nat := 4095

/-- A disk with nothing but the folders that lead to the working folder, and `/dev/null`. -/
def bare (here : Place) : Disk :=
  { nodes :=
      (["dev", "null"], .null) :: (["dev"], .folder) ::
        (List.range (here.length + 1)).map (fun n => (here.take n, .folder))
    here := here }

def node? (place : Place) (d : Disk) : Option Node := d.nodes.lookup place

def put (place : Place) (node : Node) (d : Disk) : Disk :=
  { d with nodes := (place, node) :: d.nodes.filter (fun n => n.1 != place) }

/-- Goes on by one name. Only a folder can be left, and nothing need be at the place reached. -/
def step (place : Place) (name : String) (d : Disk) : Except FileError Place :=
  match d.node? place with
  | none => .error .notFound
  | some .folder =>
    if name = "." then .ok place
    else if name = ".." then .ok place.dropLast
    else if maxName < name.utf8ByteSize then .error .nameTooLong
    else .ok (place ++ [name])
  | some _ => .error .notFolder

def walk (d : Disk) (place : Place) : List String → Except FileError Place
  | [] => .ok place
  | name :: more => (d.step place name).bind (fun place => d.walk place more)

def follow (path : String) (names : List String) (d : Disk) : Except FileError Place :=
  if maxPath < path.utf8ByteSize then .error .nameTooLong
  else d.walk (if Path.isAbsolute path then [] else d.here) names

/-- The place to read from. The path of a folder goes on to the folder itself. -/
def source (path : String) (d : Disk) : Except FileError Place :=
  d.follow path (Path.names path ++ if Path.isFolder path then ["."] else [])

/-- The place to write to. The path of a folder leads no further than to the folder around it,
which is refused like every folder. -/
def target (path : String) (d : Disk) : Except FileError Place :=
  d.follow path
    (if Path.isFolder path then (Path.names path).dropLast ++ ["."] else Path.names path)

def read (path : String) (d : Disk) : Except FileError ByteArray :=
  match d.source path with
  | .error e => .error e
  | .ok place =>
    match d.node? place with
    | none => .error .notFound
    | some .folder => .error .isFolder
    | some (.file contents) => .ok contents
    | some .null => .ok ByteArray.empty

def write (path : String) (contents : ByteArray) (d : Disk) : Except FileError Disk :=
  match d.target path with
  | .error e => .error e
  | .ok place =>
    match d.node? place with
    | some .folder => .error .isFolder
    | some .null => .ok d
    | _ => .ok (d.put place (.file contents))

def join (chunks : List (Array UInt8)) : ByteArray :=
  ⟨chunks.foldl (fun whole chunk => whole ++ chunk) #[]⟩

def fileSystem : FileSystem (StateM Disk) where
  read path := do return (← get).read path
  write path chunks := do
    match (← get).write path (join chunks) with
    | .error e => return .error e
    | .ok d =>
      set d
      return .ok ()

end Disk

end Polysynth
