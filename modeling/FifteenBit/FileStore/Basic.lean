import FifteenBit.FileStore.Error

/-! Files and folders by their names from the root. Paths are relative to a working
folder unless they begin with a slash. -/

namespace FifteenBit

inductive Entry where
  | file (bytes : List UInt8)
  | folder
  deriving DecidableEq, Repr

structure FileStore where
  /-- What the names from the root stand for. The root is a folder in any case. -/
  entries : List (List String × Entry)
  working : List String
  deriving Repr

/-- A path: the folder that it starts from, the names of folders on its way, and its
last name, if that is to be looked up in the folder reached. -/
structure Path where
  absolute : Bool
  folders : List String
  leaf : Option String
  /-- A slash follows the last name. -/
  slash : Bool
  deriving DecidableEq, Repr

namespace Path

/-- A name of its own: neither empty nor a dot. -/
def isName (s : String) : Bool :=
  s != "" && s != "."

def ofString (s : String) : Path :=
  let parts := s.splitOn "/"
  let names := parts.filter isName
  let last := (parts.filter (· != "")).getLast?
  if last = names.getLast? ∧ last ≠ some ".." then
    { absolute := s.startsWith "/", folders := names.dropLast, leaf := names.getLast?
      slash := parts.getLast? = some "" }
  else
    { absolute := s.startsWith "/", folders := names, leaf := none, slash := false }

end Path

namespace FileStore

def entry? (store : FileStore) (names : List String) : Option Entry :=
  if names.isEmpty then some .folder else store.entries.lookup names

/-- What a name stands for in a folder. A name of more than 255 bytes is refused. -/
def look (store : FileStore) (folder : List String) (name : String) :
    Except FileError (Option Entry) :=
  if 255 < name.utf8ByteSize then .error .nameTooLong
  else .ok (store.entry? (folder ++ [name]))

/-- The folder reached from another one by names. -/
def enter (store : FileStore) (start : List String) : List String → Except FileError (List String)
  | [] => .ok start
  | name :: names =>
    if name = ".." then store.enter start.dropLast names
    else match store.look start name with
      | .error e => .error e
      | .ok (some .folder) => store.enter (start ++ [name]) names
      | .ok (some (.file _)) => .error .notDirectory
      | .ok none => .error .notFound

/-- Where a path leads: to a folder, or to a name in a folder. -/
inductive Place where
  | folder
  | name (folder : List String) (leaf : String) (slash : Bool)

def locate (store : FileStore) (path : String) : Except FileError Place := do
  if path.contains '\x00' then .error .nulInName
  else if 4096 ≤ path.utf8ByteSize then .error .nameTooLong
  else
    let p := Path.ofString path
    let folder ← store.enter (if p.absolute then [] else store.working) p.folders
    match p.leaf with
    | none => .ok .folder
    | some leaf => .ok (.name folder leaf p.slash)

def read (store : FileStore) (path : String) : Except FileError (List UInt8) := do
  match ← store.locate path with
  | .folder => .error .isDirectory
  | .name folder leaf slash =>
    match ← store.look folder leaf with
    | none => .error .notFound
    | some .folder => .error .isDirectory
    | some (.file bytes) => if slash then .error .notDirectory else .ok bytes

/-- Replaces the entry of a name or adds one. -/
def put (names : List String) (entry : Entry) :
    List (List String × Entry) → List (List String × Entry)
  | [] => [(names, entry)]
  | e :: entries => if e.1 = names then (names, entry) :: entries else e :: put names entry entries

/-- Writes a file. A path that ends with a slash is taken for a folder before its last
name is looked at. -/
def write (store : FileStore) (path : String) (bytes : List UInt8) :
    Except FileError FileStore := do
  match ← store.locate path with
  | .folder => .error .isDirectory
  | .name folder leaf slash =>
    if slash then .error .isDirectory
    else match ← store.look folder leaf with
      | some .folder => .error .isDirectory
      | _ => .ok { store with entries := put (folder ++ [leaf]) (.file bytes) store.entries }

end FileStore

end FifteenBit
