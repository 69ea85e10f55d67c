import YangApi.Storage.Basic

/-! A tree of files and folders as a value, and the storage that it makes. -/

namespace YangApi

/-- A file, without a text if its bytes are none, or a folder of named entries. -/
inductive Entry where
  | file (text : Option String)
  | folder (entries : List (String × Entry))

namespace Entry

def isFolder : Entry → Bool
  | .folder _ => true
  | .file _ => false

def child? (name : String) : Entry → Option Entry
  | .folder es => (es.find? (·.1 = name)).map Prod.snd
  | .file _ => none

def others (name : String) : Entry → List (String × Entry)
  | .folder es => es.filter (·.1 ≠ name)
  | .file _ => []

def get? : Entry → List String → Option Entry
  | e, [] => some e
  | e, name :: names => (e.child? name).bind fun e => e.get? names

/-- Puts an entry in another one at the end of a way, and folders where the way is missing. -/
def putIn (new : Entry) : (old : Entry) → List String → Entry
  | _, [] => new
  | old, name :: names =>
    .folder ((name, putIn new ((old.child? name).getD (.folder [])) names) :: old.others name)

mutual

/-- The texts in and below an entry, each with its name; `way` leads up from the entry. Names for
places around a folder do not lead down. -/
def textsFrom (way : List String) : Entry → List (String × String)
  | .file (some s) => [("/".intercalate way.reverse, s)]
  | .file none => []
  | .folder es => textsIn way es

def textsIn (way : List String) : List (String × Entry) → List (String × String)
  | [] => []
  | (name, e) :: es =>
    if name = ".." || name = "/" then textsIn way es
    else textsFrom (name :: way) e ++ textsIn way es

end

def texts (e : Entry) : List (String × String) :=
  (e.textsFrom []).mergeSort fun a b => !decide (b.1 < a.1)

end Entry

/-- What is below the folder in which names start. Places above it have the name `..` there, and the
root of all places has the name `/`. -/
structure FileTree where
  top : Entry

namespace FileTree

def empty : FileTree := ⟨.folder []⟩

/-- What stands at a place. The top of the tree is a folder, and so is every place above it, and the
root. -/
def entry? (t : FileTree) (p : List String) : Option Entry :=
  match t.top.get? p with
  | some e => some e
  | none => if p.all (· = "..") || p = ["/"] then some (.folder []) else none

def put (t : FileTree) (p : List String) (e : Entry) : FileTree := ⟨e.putIn t.top p⟩

def origin (path : String) : List String := if path.startsWith "/" then ["/"] else []

def above (p : List String) : List String :=
  match p.getLast? with
  | none => [".."]
  | some ".." => p ++ [".."]
  | some "/" => p
  | some _ => p.dropLast

/-- Only in a folder a name leads anywhere, even one that stays in place. -/
def checkFolder (t : FileTree) (p : List String) : Except IoFault Unit :=
  match t.entry? p with
  | none => .error .notFound
  | some (.file _) => .error .notDirectory
  | some (.folder _) => .ok ()

def checkName (name : String) : Except IoFault Unit :=
  if 255 < name.utf8ByteSize then .error .nameTooLong else .ok ()

/-- A path has at least one byte and less than 4096, none of them zero. Of a zero byte, some say
that it cannot be in a name, and some only that they cannot use it. -/
def checkPath (zeroByte : IoFault) (path : String) : Except IoFault Unit :=
  if path.any (· = '\x00') then .error zeroByte
  else if path = "" then .error .notFound
  else if 4096 ≤ path.utf8ByteSize then .error .nameTooLong
  else .ok ()

def step (t : FileTree) (here : List String) (name : String) :
    Except IoFault (List String) := do
  t.checkFolder here
  checkName name
  if name = "" || name = "." then return here
  else if name = ".." then return above here
  else return here ++ [name]

def walk (t : FileTree) (here : List String) (names : List String) :
    Except IoFault (List String) :=
  names.foldlM t.step here

def find (t : FileTree) (here names : List String) : Except IoFault Entry := do
  match t.entry? (← t.walk here names) with
  | some e => return e
  | none => .error .notFound

/-- Makes the folders that are missing on a way, from the first to the last. They stay when a later
one cannot be made. A file is in the way of folders that are made, and ends a way that is only
followed. -/
def makeFolders : (made : Bool) → FileTree → (here names : List String) →
    FileTree × Except IoFault Unit
  | _, t, _, [] => (t, .ok ())
  | made, t, here, name :: names =>
    if name = ".." then makeFolders made t (above here) names
    else
      match checkName name, t.entry? (here ++ [name]) with
      | .error e, _ => (t, .error e)
      | _, some (.folder _) => makeFolders made t (here ++ [name]) names
      | _, some (.file _) => (t, .error (if made then .exists else .notDirectory))
      | _, none => makeFolders true (t.put (here ++ [name]) (.folder [])) (here ++ [name]) names

def makeRoom (t : FileTree) (path : String) : FileTree × Except IoFault Unit :=
  match checkPath .badName (Location.folder path) with
  | .error e => (t, .error e)
  | .ok () =>
    let names := (Location.names path).dropLast
    match t.find (origin path) names with
    | .ok _ => (t, .ok ())
    | .error _ => t.makeFolders false (origin path) names

def read (t : FileTree) (path : String) : Except IoFault String := do
  checkPath .badName path
  match ← t.find (origin path) (Location.parts path) with
  | .folder _ => .error .isDirectory
  | .file (some s) => return s
  | .file none => .error .notText

/-- A text is first written beside its place, under a name that has ten bytes. -/
def checkBeside (t : FileTree) (path : String) : Except IoFault Unit := do
  checkPath .badName (Location.folder path ++ "/.tmp000000")
  t.checkFolder (← t.walk (origin path) (Location.names path).dropLast)

/-- Where a file named `path` goes. It must be a name in a folder, not a folder's, and a slash
behind it asks for a folder. -/
def target (t : FileTree) (path : String) : Except IoFault (List String) := do
  checkPath .invalid path
  let parts := (Location.parts path).reverse
  let slashes := parts.takeWhile (· = "")
  match parts.dropWhile (· = "") with
  | [] => .error .busy
  | name :: parts =>
    let around ← t.walk (origin path) parts.reverse
    t.checkFolder around
    if name = "." || name = ".." then .error .busy
    else do
      checkName name
      if !slashes.isEmpty then .error .notDirectory
      else if (t.entry? (around ++ [name])).any Entry.isFolder then .error .isDirectory
      else return around ++ [name]

/-- Puts a file in place of what has the name `path`. The folders on the way are made first, and
stay when the file has no place. -/
def replace (t : FileTree) (path text : String) : FileTree × Except IoFault Unit :=
  match t.makeRoom path with
  | (t, .error e) => (t, .error e)
  | (t, .ok ()) =>
    match (do t.checkBeside path; t.target path) with
    | .error e => (t, .error e)
    | .ok p => (t.put p (.file (some text)), .ok ())

def insert (t : FileTree) (path : String) (e : Entry) : FileTree :=
  let t := (t.makeRoom path).1
  match t.target path with
  | .ok p => t.put p e
  | .error _ => t

def storage : Storage (StateM FileTree) where
  read path := return (← get).read path
  replace path text := modifyGet fun t => (t.replace path text).swap

def texts (t : FileTree) : List (String × String) := t.top.texts

end FileTree

end YangApi
