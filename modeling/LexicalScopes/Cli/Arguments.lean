import LexicalScopes.Cli.Usage
import LexicalScopes.Json.Basic

/-!
# Requests

What a command line asks for. The options of the program come first, then the name of a command,
then the arguments of the command, in which options and the path of the input may be mixed. Options
take effect from left to right: asking for help ends the reading where it stands, and of an option
given twice the last counts. The value `--` leaves an option without a value: no file is named, and
in the place of a number stands an empty list. Arguments that nothing asks for are complained about
only after the rest has been found in order.
-/

namespace LexicalScopes.Cli

/-- The commands, with the options that only they have. -/
inductive Command where
  /-- Write the scope tree, to a file if one is named. -/
  | scopes (out : Option String)
  /-- List the scopes around a location. -/
  | find (line column : Json)
deriving DecidableEq, Repr

/-- What is asked for. -/
structure Request where
  verbose : Bool
  strict : Bool
  asModule : Bool
  generated : Bool
  input : String
  command : Command
deriving DecidableEq, Repr

/-- Why there is no request. -/
inductive Stop where
  | help (page : Page)
  | problem (page : Page) (problem : Problem)
  /-- No command is named. -/
  | idle
deriving DecidableEq, Repr

/-! ## Settings -/

/-- The values of the options and of the input, as far as they are known. -/
structure Settings where
  verbose : Bool := false
  strict : Bool := false
  asModule : Bool := false
  generated : Bool := false
  out : Option String := none
  line : Option Json := none
  column : Option Json := none
  input : Option String := none
deriving DecidableEq, Repr

/-- The value of an option; `--` is none. -/
def Given.text? (g : Given) : Option String := g.value.filter (· != "--")

/-- The whole number that an option was given, or an empty list if it was given no value. -/
def wholeValue (page : Page) (g : Given) : Except Stop Json :=
  match g.text? with
  | none => .ok (.array [])
  | some text =>
    match Text.whole? text with
    | some n => .ok (.int n)
    | none => .error (.problem page (.notWhole g.option text))

namespace Settings

/-- The effect of an option. -/
def apply (page : Page) (s : Settings) (g : Given) : Except Stop Settings :=
  match g.option with
  | .help => .error (.help page)
  | .verbose => .ok { s with verbose := true }
  | .strict => .ok { s with strict := true }
  | .asModule => .ok { s with asModule := true }
  | .generated => .ok { s with generated := true }
  | .out => .ok { s with out := g.text? }
  | .line => return { s with line := some (← wholeValue page g) }
  | .column => return { s with column := some (← wholeValue page g) }

end Settings

/-! ## Reading tokens -/

/-- What has been read of a command line. -/
structure Progress where
  settings : Settings := {}
  /-- Arguments that nothing asks for. -/
  extras : List String := []

namespace Progress

/-- Set an argument aside. -/
def skip (p : Progress) (argument : String) : Progress :=
  { p with extras := p.extras ++ [argument] }

/-- Take an argument as the input. -/
def takeInput (p : Progress) (argument : String) : Progress :=
  { p with settings := { p.settings with input := some argument } }

/-- The effect of the options in one argument, and of the value that the last of them waited for. -/
def takeOptions (page : Page) (p : Progress) (u : Unpacked) (value : Option Given) :
    Except Stop Progress := do
  let settings ← (u.given ++ value.toList).foldlM (Settings.apply page) p.settings
  return { p with settings }

end Progress

/-- The options in one argument. -/
def optionsIn (page : Page) (argument : String) (m : Met) : Except Stop Unpacked :=
  (unpack page.options argument m).mapError (.problem page)

/-- Read the arguments of a command. A plain argument is the input if there is none yet; the dashes
directly before or behind it belong to it. An option that waits for its value needs a plain
argument next. -/
def readCommand (page : Page) : Progress → List Token → Except Stop Progress
  | p, [] => .ok p
  | p, .met argument m :: rest => do
    let u ← optionsIn page argument m
    match u.waiting with
    | none => readCommand page (← p.takeOptions page u none) rest
    | some o =>
      match rest with
      | .plain value :: rest =>
        readCommand page (← p.takeOptions page u (some ⟨o, some value⟩)) rest
      | _ => .error (.problem page (.missingValue o))
  | p, .plain argument :: .dashes :: rest =>
    if p.settings.input.isNone then readCommand page (p.takeInput argument) rest
    else readCommand page ((p.skip argument).skip "--") rest
  | p, .dashes :: .plain argument :: rest =>
    if p.settings.input.isNone then readCommand page (p.takeInput argument) rest
    else readCommand page ((p.skip "--").skip argument) rest
  | p, .plain argument :: rest =>
    if p.settings.input.isNone then readCommand page (p.takeInput argument) rest
    else readCommand page (p.skip argument) rest
  | p, .dashes :: rest => readCommand page (p.skip "--") rest
  | p, .unknown argument :: rest => readCommand page (p.skip argument) rest

/-- What the arguments before the command ask for, the name of the command, and its arguments. The
dashes stand in the place of a command if anything follows them. -/
def readProgram : Progress → List Token → Except Stop (Progress × Option (String × List String))
  | p, [] => .ok (p, none)
  | p, .plain command :: rest => .ok (p, some (command, rest.map (·.argument)))
  | p, .dashes :: [] => .ok (p.skip "--", none)
  | p, .dashes :: rest => .ok (p, some ("--", rest.map (·.argument)))
  | p, .unknown argument :: rest => readProgram (p.skip argument) rest
  | p, .met argument m :: rest => do
    let u ← optionsIn .program argument m
    match u.waiting with
    | none => readProgram (← p.takeOptions .program u none) rest
    | some o =>
      match rest with
      | .plain value :: rest =>
        readProgram (← p.takeOptions .program u (some ⟨o, some value⟩)) rest
      | _ => .error (.problem .program (.missingValue o))

/-! ## Requests -/

/-- The tokens of a command line. -/
def tokens (page : Page) (arguments : List String) : Except Stop (List Token) :=
  (classifyAll page.options arguments).mapError (.problem page)

/-- What a command needs and was not given. -/
def missingNames (page : Page) (s : Settings) : List String :=
  (if s.input.isNone then ["input"] else [])
    ++ (if page = .find && s.line.isNone then ["--line"] else [])

/-- The request that complete settings make. -/
def Settings.request (page : Page) (verbose : Bool) (s : Settings) : Request where
  verbose := verbose
  strict := s.strict
  asModule := s.asModule
  generated := s.generated
  input := s.input.getD ""
  command := match page with
    | .find => .find (s.line.getD (.int 0)) (s.column.getD (.int 0))
    | _ => .scopes s.out

/-- Complain about arguments that nothing asks for. -/
def noExtras (extras : List String) : Except Stop Unit :=
  if extras.isEmpty then .ok () else .error (.problem .program (.unrecognized extras))

/-- The request of a command line. -/
def Request.ofArguments (arguments : List String) : Except Stop Request := do
  let (before, command?) ← readProgram {} (← tokens .program arguments)
  match command? with
  | none =>
    noExtras before.extras
    .error .idle
  | some (command, rest) =>
    match Page.ofCommand? command with
    | none => .error (.problem .program (.unknownCommand command))
    | some page =>
      let read ← readCommand page {} (← tokens page rest)
      let missing := missingNames page read.settings
      if !missing.isEmpty then .error (.problem page (.missing missing))
      noExtras (before.extras ++ read.extras)
      return read.settings.request page before.settings.verbose

end LexicalScopes.Cli
