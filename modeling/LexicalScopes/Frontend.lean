import LexicalScopes.Analysis
import LexicalScopes.Cache
import LexicalScopes.Json.Printer
import LexicalScopes.Parse

/-!
# Runs over sources

A run parses one source and analyses its tree. A reported failure of the analysis is part of the
result, so that the next source can be taken up. A run may store what the parser answered and may
take the scope tree from a cache shared by many runs. What it does on the way is noted in a log.
-/

namespace LexicalScopes

/-! ## Log -/

/-- How urgent a notice is. -/
inductive Level where
  | debug
  | warning
deriving DecidableEq, Repr

/-- The word for a level. -/
def Level.text : Level → String
  | .debug => "DEBUG"
  | .warning => "WARNING"

/-- What happened to the source of the given name. -/
inductive Notice where
  | collected (name : String)
  | keptModule (name : String)
  | dissolvedModule (name : String)
  | cacheStale (name : String)
  | cacheHit (name : String)
  | notParsed (name : String) (message : String)
  | notAnalysed (name : String) (error : ScopeError)
  | notStored (name : String)
deriving DecidableEq, Repr

namespace Notice

/-- How urgent the notice is. -/
def level : Notice → Level
  | notParsed _ _ => .warning
  | notAnalysed _ _ => .warning
  | notStored _ => .warning
  | _ => .debug

/-- The part of the program that speaks. -/
def channel : Notice → String
  | collected _ => "analyzer.scope_tracker"
  | keptModule _ => "analyzer.exporter"
  | dissolvedModule _ => "analyzer.exporter"
  | cacheStale _ => "frontend.cache"
  | cacheHit _ => "frontend.cache"
  | notParsed _ _ => "parser.esprima_parser"
  | notAnalysed _ _ => "frontend.pipeline"
  | notStored _ => "frontend.pipeline"

/-- The message of the notice. -/
def message : Notice → String
  | collected name => "Collected scopes for " ++ name
  | keptModule name => "Keeping module scope for " ++ name
  | dissolvedModule name => "Stripping module scope for " ++ name
  | cacheStale name => "Source " ++ name ++ " changed; dropping cached scopes"
  | cacheHit name => "Scope cache hit for " ++ name
  | notParsed name message => "Failed to parse " ++ name ++ ": " ++ message
  | notAnalysed name error => "Scope analysis failed for " ++ name ++ ": " ++ error.message
  | notStored name => "AST for " ++ name ++ " is too deep to persist; skipping"

/-- The line of the notice in the log. -/
def line (n : Notice) : String := n.level.text ++ " " ++ n.channel ++ ": " ++ n.message

end Notice

/-! ## Tasks -/

/-- Why a run has no result. -/
inductive Failure where
  /-- The parser's error, in a run that is not tolerant. -/
  | parser (message : String)
  /-- Something that cannot be read, or that the storage does not take. -/
  | unreadable
deriving DecidableEq, Repr

/-- A scope tree and the number of the run that built it. -/
structure Analysed where
  run : Nat
  tree : Scope

/-- What runs share and leave behind. -/
structure World where
  cache : Cache Analysed := {}
  /-- The number of runs begun. -/
  runs : Nat := 0
  calls : List ParserCall := []
  log : List Notice := []
  /-- Names and texts of the stored answers. -/
  stored : List (String × String) := []

/-- A step of a run; what it did before it failed stays done. -/
abbrev Task : Type → Type := EStateM Failure World

/-- Add a notice to the log. -/
def note (n : Notice) : Task Unit := modify fun w => { w with log := w.log ++ [n] }

/-- A value that has to be readable. -/
def orFail {α : Type} : Option α → Task α
  | some a => pure a
  | none => throw .unreadable

/-- Something that has to be so. -/
def demand : Bool → Task Unit
  | true => pure ()
  | false => throw .unreadable

/-! ## Storage -/

mutual

/-- How deep lists and objects are nested in a value. -/
def Json.depth : Json → Nat
  | .scalar _ => 0
  | .array items => 1 + depthOfItems items
  | .object fields => 1 + depthOfFields fields

def depthOfItems : List Json → Nat
  | [] => 0
  | item :: rest => max item.depth (depthOfItems rest)

def depthOfFields : List (String × Json) → Nat
  | [] => 0
  | (_, value) :: rest => max value.depth (depthOfFields rest)

end

/-- What can be stored: through which values the encoder gets, which directories are there or can be
made, and which files can be written. How deep an encoder gets is up to the machine; where nothing
else is said, it gets 900 levels deep, and everything can be made and written. -/
structure Storage where
  encodes : Json → Bool := fun j => j.depth ≤ 900
  makes : String → Bool := fun _ => true
  writes : String → Bool := fun _ => true

/-! ## Steps of a run -/

/-- A source and what is to be done with it. A flag counts as set unless it is null, false, zero or
empty. -/
structure Job where
  source : Json
  name : Json := .string "<input>"
  tolerant : Json := .bool true
  analyze : Bool := true
  sourceType : Json := .string "script"
  generated : Json := .bool false
  useCache : Bool := false
  /-- The directory in which the parser's answer is stored. -/
  storeIn : Option String := none
  storage : Storage := {}

namespace Job

/-- The call of the parser for a job. -/
def call (job : Job) : ParserCall := ⟨job.sourceType == .string "module", job.source, job.tolerant⟩

/-- The name of the source in the log. -/
def label (job : Job) : String := job.name.text

/-- What the scope tree of a job depends on. -/
def fingerprint (job : Job) (parsed : Parsed) : Fingerprint :=
  .of (.string parsed.hash) job.sourceType job.generated

/-- The hash of the source, which has to be a text. -/
def hash (job : Job) : Task String := orFail (job.source.string?.bind Digest.ofText?)

/-- Call the parser. -/
def askParser (parser : Parser) (job : Job) : Task ParserAnswer := do
  modify fun w => { w with calls := w.calls ++ [job.call] }
  return parser job.call

/-- Parse the source. Only a tolerant run has a result without a tree. -/
def parse (parser : Parser) (job : Job) : Task Parsed := do
  match ← job.askParser parser with
  | .error e =>
    if job.tolerant.isPresent then
      note (.notParsed job.label e.message)
      return ⟨.null, [e.issue], ← job.hash, job.name⟩
    else throw (.parser e.message)
  | .tree ast =>
    let issues ← orFail
      (if job.tolerant.isPresent then (recoveredIssues ast).toOption else some [])
    return ⟨ast, issues, ← job.hash, job.name⟩

end Job

/-- Store the parser's answer in a directory, under the hash of the source. An answer that the
encoder does not get through is passed over. -/
def Parsed.store (p : Parsed) (storage : Storage) (directory : String) : Task Unit := do
  demand (storage.makes directory)
  if storage.encodes p.ast then
    let text ← orFail (Text.plain? p.toJson.print)
    let name := directory ++ "/" ++ p.hash ++ ".json"
    demand (storage.writes name)
    modify fun w => { w with stored := w.stored ++ [(name, text)] }
  else note (.notStored p.name.text)

/-- Look the scope tree up in the cache. -/
def Job.cached? (job : Job) (parsed : Parsed) : Task (Option Analysed) := do
  let key ← orFail job.name.key?
  let fingerprint := job.fingerprint parsed
  let found := (← get).cache.lookup key fingerprint
  modify fun w => { w with cache := w.cache.afterLookup key fingerprint }
  match found with
  | .absent => pure ()
  | .stale => note (.cacheStale job.label)
  | .hit _ => note (.cacheHit job.label)
  return found.result?

/-- Put the scope tree into the cache. -/
def Job.remember (job : Job) (parsed : Parsed) (a : Analysed) : Task Unit := do
  let key ← orFail job.name.key?
  modify fun w => { w with cache := w.cache.put key (job.fingerprint parsed) a }

/-- Continue with the value of a step of the analysis. A reported failure ends the analysis with
that failure, any other ends the run. -/
def orReport {α β : Type} (r : Except Cause α) (go : α → Task (Except ScopeError β)) :
    Task (Except ScopeError β) :=
  match (liftM r : Except Fault α) with
  | .ok a => go a
  | .error (.reported e) => return .error e
  | .error .unreadable => throw .unreadable

/-- Analyse a tree, noting how far the analysis came. -/
def Job.analysed (job : Job) (ast : Json) : Task (Except ScopeError Scope) :=
  orReport (collect ast) fun b => do
    note (.collected job.label)
    orReport b.rootScope fun root => do
      let generated := job.generated.isPresent
      note (if b.graph.keepsModule root b.isModule generated then .keptModule job.label
        else .dissolvedModule job.label)
      orReport (b.finish generated) fun tree => return .ok tree

/-! ## Runs -/

/-- The result of a run. -/
structure Report where
  parsed : Parsed
  scopes : Option Analysed
  error : Option ScopeError

namespace Job

/-- Analyse the parsed source, and remember the scope tree if the run uses the cache. -/
def analyseParsed (job : Job) (run : Nat) (parsed : Parsed) : Task Report := do
  match ← job.analysed parsed.ast with
  | .error e =>
    note (.notAnalysed job.label e)
    return ⟨parsed, none, some e⟩
  | .ok tree =>
    let a : Analysed := ⟨run, tree⟩
    if job.useCache then job.remember parsed a
    return ⟨parsed, some a, none⟩

/-- Parse a source and find its scopes. -/
def run (parser : Parser) (job : Job) : Task Report := do
  let number := (← get).runs
  modify fun w => { w with runs := w.runs + 1 }
  let parsed ← job.parse parser
  if let some directory := job.storeIn then parsed.store job.storage directory
  if !job.analyze || parsed.ast.isNull then return ⟨parsed, none, none⟩
  let found ← if job.useCache then job.cached? parsed else pure none
  match found with
  | some a => return ⟨parsed, some a, none⟩
  | none => job.analyseParsed number parsed

end Job

end LexicalScopes
