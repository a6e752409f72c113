import LexicalScopes.Text.CodePoint

/-!
# Files

A tree of directories and files, and what can be done in it: read a file, make a directory with all
directories above it, write a file. A path is given as text, relative to a working directory or from
the root. Reading takes `..` as the removal of the name before it; making and writing walk along the
path, so that every directory on it has to be there.
-/

namespace LexicalScopes.Cli

/-- The names that lead from the root to a place. -/
abbrev Place := List String

/-- What stands at a place. -/
inductive Entry where
  | directory
  | file (content : ByteArray)

/-- Files are equal if their bytes are. -/
instance : DecidableEq Entry
  | .directory, .directory => isTrue rfl
  | .directory, .file _ => isFalse nofun
  | .file _, .directory => isFalse nofun
  | .file a, .file b =>
    decidable_of_iff (a.data = b.data)
      ⟨fun h => congrArg Entry.file (ByteArray.ext h), fun h => congrArg ByteArray.data (by
        cases h
        rfl)⟩

/-- Why something cannot be done with a path. -/
inductive FileError where
  | notFound
  | notDirectory
  | isDirectory
  | exists
  /-- A name is longer than 255 bytes, or a path longer than 4095. -/
  | tooLong
  /-- The path holds the character U+0000, or half of a surrogate pair that is no byte. -/
  | badPath
deriving DecidableEq, Repr

/-! ## Paths -/

/-- A path as it is given: the names between its slashes, without the empty ones and the single
dots. -/
structure Route where
  fromRoot : Bool
  names : List String
deriving DecidableEq, Repr

/-- The pieces of a text between slashes. -/
def pieces : List Char → List (List Char)
  | [] => [[]]
  | c :: rest =>
    if c = '/' then [] :: pieces rest
    else
      match pieces rest with
      | [] => [[c]]
      | piece :: others => (c :: piece) :: others

/-- A byte of a name that is not UTF-8 is given as half of a surrogate pair, U+DC00 above it. -/
def isByte (code : Nat) : Bool := 0xDC80 ≤ code && code < 0xDD00

/-- The code point may stand in a path. -/
def isPathCode (code : Nat) : Bool := code != 0 && (!Text.isHalf code || isByte code)

/-- The number of bytes of a code point in a path. -/
def bytesIn (code : Nat) : Nat :=
  if code < 0x80 || isByte code then 1
  else if code < 0x800 then 2
  else if code < 0x10000 then 3
  else 4

/-- The number of bytes of a path or a name. -/
def byteLength (text : String) : Nat := ((Text.codes text).map bytesIn).foldl (· + ·) 0

namespace Route

/-- The path that a text gives. -/
def ofText (text : String) : Route where
  fromRoot := text.toList.head? == some '/'
  names := ((pieces text.toList).map String.ofList).filter fun name => name != "" && name != "."

/-- The text of a path. -/
def text (r : Route) : String := (if r.fromRoot then "/" else "") ++ "/".intercalate r.names

/-- Where a path starts. -/
def start (r : Route) (workingDirectory : Place) : Place :=
  if r.fromRoot then [] else workingDirectory

/-- The path that holds what this one leads to. -/
def parent (r : Route) : Route := { r with names := r.names.dropLast }

/-- The path can be handed to the file system. -/
def isGood (r : Route) : Bool := r.names.all fun name => (Text.codes name).all isPathCode

/-- The place that a path leads to if every name on it is a directory. -/
def place (r : Route) (workingDirectory : Place) : Place :=
  r.names.foldl (fun p name => if name == ".." then p.dropLast else p ++ [name])
    (r.start workingDirectory)

end Route

/-- The text of a place. -/
def Place.text (p : Place) : String := "/" ++ "/".intercalate p

/-- Longer names are refused. -/
def longestName : Nat := 255

/-- Longer paths are refused. -/
def longestPath : Nat := 4095

/-! ## Trees -/

/-- Directories and files by place. The root is a directory that is not listed. -/
structure FileTree where
  entries : List (Place × Entry) := []

namespace FileTree

/-- What stands at a place. -/
def get? (t : FileTree) : Place → Option Entry
  | [] => some .directory
  | p => t.entries.lookup p

/-- Put an entry at a place, instead of what stands there. -/
def put (t : FileTree) (p : Place) (e : Entry) : FileTree :=
  match t.get? p with
  | none => ⟨t.entries ++ [(p, e)]⟩
  | some _ => ⟨t.entries.map fun (q, old) => (q, if q = p then e else old)⟩

theorem lookup_replace (entries : List (Place × Entry)) (p q : Place) (e : Entry) :
    (entries.map fun (r, old) => (r, if r = p then e else old)).lookup q =
      (entries.lookup q).map fun old => if q = p then e else old := by
  induction entries with
  | nil => simp
  | cons entry rest ih =>
    obtain ⟨r, old⟩ := entry
    rw [List.map_cons, List.lookup_cons, List.lookup_cons, ih]
    by_cases h : q = r
    · simp [h]
    · simp [beq_false_of_ne h]

/-- A place below the root holds what was put there last. -/
theorem get?_put (t : FileTree) {p : Place} (e : Entry) (q : Place) (hp : p ≠ []) :
    (t.put p e).get? q = if q = p then some e else t.get? q := by
  have look (t : FileTree) {r : Place} (hr : r ≠ []) : t.get? r = t.entries.lookup r := by
    cases r with
    | nil => exact absurd rfl hr
    | cons => rfl
  by_cases hq : q = []
  · subst hq
    simp [get?, Ne.symm hp]
  · rw [look _ hq, look _ hq, put, look _ hp]
    cases h : t.entries.lookup p with
    | none =>
      rw [List.lookup_append]
      by_cases hqp : q = p
      · simp [hqp, h]
      · simp [hqp, List.lookup_cons, beq_false_of_ne hqp]
    | some old =>
      rw [lookup_replace]
      by_cases hqp : q = p
      · simp [hqp, h]
      · simp [hqp]

/-- Make sure that there is a directory at a place that holds no file. -/
def putDirectory (t : FileTree) (p : Place) : FileTree :=
  match t.get? p with
  | none => t.put p .directory
  | some _ => t

/-- Put an entry at a place, with the directories above it. -/
def putBelow (t : FileTree) (p : Place) (e : Entry) : FileTree :=
  ((List.range p.length).foldl (fun t n => t.putDirectory (p.take n)) t).put p e

/-- Go from a directory to what has the given name in it. -/
def look (t : FileTree) (directory : Place) (name : String) : Except FileError (Place × Entry) :=
  if name = ".." then .ok (directory.dropLast, .directory)
  else if longestName < byteLength name then .error .tooLong
  else
    let p := directory ++ [name]
    match t.get? p with
    | some e => .ok (p, e)
    | none => .error .notFound

/-- Walk along names, each of which has to be one of a directory. -/
def walk (t : FileTree) : Place → List String → Except FileError Place
  | p, [] => .ok p
  | p, name :: rest => do
    match ← t.look p name with
    | (p, .directory) => t.walk p rest
    | (_, .file _) => .error .notDirectory

/-- What stands at a place, found by walking there from the root. -/
def find (t : FileTree) (p : Place) : Except FileError Entry := do
  if longestPath < byteLength p.text then .error .tooLong
  else
    match p.getLast? with
    | none => return .directory
    | some name => return (← t.look (← t.walk [] p.dropLast) name).2

/-- The content of the file at a place. -/
def read (t : FileTree) (p : Place) : Except FileError ByteArray := do
  match ← t.find p with
  | .directory => .error .isDirectory
  | .file content => .ok content

/-! ## Making directories -/

/-- The file system takes the path. -/
def accept (r : Route) : Except FileError Unit :=
  if !r.isGood then .error .badPath
  else if longestPath < byteLength r.text then .error .tooLong
  else .ok ()

/-- The path leads to a directory. -/
def isDirectory (t : FileTree) (workingDirectory : Place) (r : Route) : Bool :=
  (do accept r; t.walk (r.start workingDirectory) r.names : Except FileError Place).isOk

/-- Make the directory that a path leads to, in a directory that exists. -/
def makeDirectory (t : FileTree) (workingDirectory : Place) (r : Route) :
    Except FileError FileTree := do
  accept r
  match r.names.getLast? with
  | none => .error .exists
  | some name =>
    let directory ← t.walk (r.start workingDirectory) r.names.dropLast
    match t.look directory name with
    | .ok _ => .error .exists
    | .error .notFound => .ok (t.put (directory ++ [name]) .directory)
    | .error e => .error e

/-- Make a directory unless it is there. Second is what went wrong. -/
def keepOrMake (t : FileTree) (workingDirectory : Place) (r : Route) :
    FileTree × Option FileError :=
  match t.makeDirectory workingDirectory r with
  | .ok t => (t, none)
  | .error e => if t.isDirectory workingDirectory r then (t, none) else (t, some e)

/-- Make a directory and all directories above it, as far as they are missing. If that fails half
way, what was made stays. -/
def ensureDirectory (t : FileTree) (workingDirectory : Place) (r : Route) :
    FileTree × Option FileError :=
  match t.makeDirectory workingDirectory r with
  | .error .notFound =>
    if r.names = [] then (t, some .notFound)
    else
      match t.ensureDirectory workingDirectory r.parent with
      | (t, none) => t.keepOrMake workingDirectory r
      | failed => failed
  | _ => t.keepOrMake workingDirectory r
termination_by r.names.length
decreasing_by
  rename_i h
  have := List.length_pos_iff.mpr h
  simp [Route.parent]
  omega

/-! ## Writing files -/

/-- Write a file, in a directory that exists. -/
def write (t : FileTree) (workingDirectory : Place) (r : Route) (content : ByteArray) :
    Except FileError FileTree := do
  accept r
  match r.names.getLast? with
  | none => .error .isDirectory
  | some name =>
    let directory ← t.walk (r.start workingDirectory) r.names.dropLast
    match t.look directory name with
    | .ok (_, .directory) => .error .isDirectory
    | .ok (p, .file _) => .ok (t.put p (.file content))
    | .error .notFound => .ok (t.put (directory ++ [name]) (.file content))
    | .error e => .error e

/-- Write a file, making the directories above it. -/
def deliver (t : FileTree) (workingDirectory : Place) (r : Route) (content : ByteArray) :
    FileTree × Option FileError :=
  match t.ensureDirectory workingDirectory r.parent with
  | (t, none) =>
    match t.write workingDirectory r content with
    | .ok t => (t, none)
    | .error e => (t, some e)
  | failed => failed

end FileTree

end LexicalScopes.Cli
