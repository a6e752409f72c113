import LexicalScopes.Text.Quoted
import LexicalScopes.Text.Whole

/-!
# Command lines

A command line is a mixture of options and plain arguments. An option is given by one of its
spellings or by a beginning that only one of its long spellings has; a value follows as the next
argument or after an equals sign. Short options without values may be run together behind one dash.
After `--` every argument is plain, and given as a value after an equals sign it is no value. An
argument that looks like a negative number, or that holds a space and is no option, is plain too.
-/

namespace LexicalScopes.Cli

/-! ## Options -/

/-- What can be asked for with a dash. -/
inductive OptionName where
  | help
  | verbose
  | strict
  | asModule
  | generated
  | out
  | line
  | column
deriving DecidableEq, Repr

namespace OptionName

/-- How an option is written. -/
def spellings : OptionName → List String
  | help => ["-h", "--help"]
  | verbose => ["-v", "--verbose"]
  | strict => ["--strict"]
  | asModule => ["--module"]
  | generated => ["--generated"]
  | out => ["--out"]
  | line => ["--line"]
  | column => ["--column"]

/-- The option is followed by a value. -/
def takesValue : OptionName → Bool
  | out => true
  | line => true
  | column => true
  | _ => false

/-- The option as it is named in messages. -/
def title (o : OptionName) : String := "/".intercalate o.spellings

end OptionName

/-- What is wrong with a command line. -/
inductive Problem where
  | ambiguous (argument : String) (spellings : List String)
  | ignoredValue (option : OptionName) (value : String)
  | missingValue (option : OptionName)
  | notWhole (option : OptionName) (value : String)
  | unknownCommand (argument : String)
  | missing (names : List String)
  | unrecognized (arguments : List String)
deriving DecidableEq, Repr

/-- The wording of a problem. -/
def Problem.message : Problem → String
  | ambiguous argument spellings =>
    "ambiguous option: " ++ argument ++ " could match " ++ ", ".intercalate spellings
  | ignoredValue option value =>
    "argument " ++ option.title ++ ": ignored explicit argument " ++ Text.quoted value
  | missingValue option => "argument " ++ option.title ++ ": expected one argument"
  | notWhole option value =>
    "argument " ++ option.title ++ ": invalid int value: " ++ Text.quoted value
  | unknownCommand argument =>
    "argument command: invalid choice: " ++ Text.quoted argument
      ++ " (choose from 'scopes', 'find')"
  | missing names => "the following arguments are required: " ++ ", ".intercalate names
  | unrecognized arguments => "unrecognized arguments: " ++ " ".intercalate arguments

/-! ## Classifying arguments -/

/-- An option as it is met on a command line. -/
structure Met where
  option : OptionName
  spelling : String
  /-- A value, or more letters, written in the same argument. -/
  attached : Option String
deriving DecidableEq, Repr

/-- What an argument is taken for. -/
inductive Token where
  | plain (argument : String)
  /-- The first `--`. -/
  | dashes
  | met (argument : String) (m : Met)
  /-- It looks like an option, but there is none such. -/
  | unknown (argument : String)
deriving DecidableEq, Repr

/-- The argument itself. -/
def Token.argument : Token → String
  | plain a => a
  | dashes => "--"
  | met a _ => a
  | unknown a => a

/-- Split a text at its first equals sign. -/
def splitEquals (s : String) : String × Option String :=
  let cs := s.toList
  match cs.dropWhile (· != '=') with
  | [] => (s, none)
  | _ :: value => (String.ofList (cs.takeWhile (· != '=')), some (String.ofList value))

/-- All spellings of some options. -/
def spellingsOf (options : List OptionName) : List (String × OptionName) :=
  options.flatMap fun o => o.spellings.map fun s => (s, o)

/-- The options that an argument may abbreviate. Behind two dashes it is a beginning of a
spelling, up to an equals sign. Behind one dash the first letter may be an option of its own, with
the rest attached to it. -/
def abbreviated (options : List OptionName) (argument : String) : List Met :=
  let (start, value) := splitEquals argument
  match argument.toList with
  | '-' :: '-' :: _ =>
    (spellingsOf options).filterMap fun (spelling, o) =>
      if start.toList.isPrefixOf spelling.toList then some ⟨o, spelling, value⟩
      else none
  | '-' :: letter :: rest =>
    (spellingsOf options).filterMap fun (spelling, o) =>
      if spelling == String.ofList ['-', letter] then
        some ⟨o, spelling, some (String.ofList rest)⟩
      else if argument.toList.isPrefixOf spelling.toList then some ⟨o, spelling, none⟩
      else none
  | _ => []

/-- The characters are decimal digits, at least one. -/
def areDigits (cs : List Char) : Bool := !cs.isEmpty && cs.all fun c => (Text.digit? c).isSome

/-- A dash, then digits with at most one point, which has digits after it. A line feed may end the
text. -/
def looksNegative (argument : String) : Bool :=
  match argument.toList with
  | '-' :: rest =>
    let cs := if rest.getLast? == some '\n' then rest.dropLast else rest
    match cs.dropWhile fun c => (Text.digit? c).isSome with
    | [] => areDigits cs
    | '.' :: after => areDigits after
    | _ => false
  | _ => false

/-- What an argument before `--` is taken for. -/
def classify (options : List OptionName) (argument : String) : Except Problem Token :=
  match argument.toList with
  | '-' :: _ :: _ =>
    match (spellingsOf options).lookup argument with
    | some o => .ok (.met argument ⟨o, argument, none⟩)
    | none =>
      let (start, value) := splitEquals argument
      match value, (spellingsOf options).lookup start with
      | some v, some o => .ok (.met argument ⟨o, start, some v⟩)
      | _, _ =>
        match abbreviated options argument with
        | [m] => .ok (.met argument m)
        | [] =>
          if looksNegative argument || argument.toList.contains ' ' then .ok (.plain argument)
          else .ok (.unknown argument)
        | several => .error (.ambiguous argument (several.map (·.spelling)))
  | _ => .ok (.plain argument)

/-- What the arguments of a command line are taken for. -/
def classifyAll (options : List OptionName) : List String → Except Problem (List Token)
  | [] => .ok []
  | "--" :: rest => .ok (.dashes :: rest.map .plain)
  | argument :: rest => do
    return (← classify options argument) :: (← classifyAll options rest)

/-! ## Options run together -/

/-- An option with its value, or without one. -/
structure Given where
  option : OptionName
  value : Option String
deriving DecidableEq, Repr

/-- The options that one argument asks for. An option that still waits for its value comes last. -/
structure Unpacked where
  given : List Given
  waiting : Option OptionName
deriving DecidableEq, Repr

/-- Take the options of one argument apart; `fuel` bounds the number of letters. What is attached to
a short option without a value is read as more letters, each of which has to be an option. -/
def unpackFrom (options : List OptionName) : Nat → List Given → Met → Except Problem Unpacked
  | 0, given, _ => .ok ⟨given, none⟩
  | fuel + 1, given, m =>
    match m.attached with
    | none =>
      if m.option.takesValue then .ok ⟨given, some m.option⟩
      else .ok ⟨given ++ [⟨m.option, none⟩], none⟩
    | some text =>
      if m.option.takesValue then .ok ⟨given ++ [⟨m.option, some text⟩], none⟩
      else
        match m.spelling.toList, text.toList with
        | ['-', _], letter :: rest =>
          let spelling := String.ofList ['-', letter]
          match (spellingsOf options).lookup spelling with
          | some o =>
            let attached := if rest.isEmpty then none else some (String.ofList rest)
            unpackFrom options fuel (given ++ [⟨m.option, none⟩]) ⟨o, spelling, attached⟩
          | none => .error (.ignoredValue m.option text)
        | _, _ => .error (.ignoredValue m.option text)

/-- Take the options of one argument apart. -/
def unpack (options : List OptionName) (argument : String) (m : Met) : Except Problem Unpacked :=
  unpackFrom options (argument.length + 1) [] m

end LexicalScopes.Cli
