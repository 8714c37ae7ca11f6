/-!
The arguments of the command line.  Options stand in any order, those of a command after its name;
each stands at most once on either side of the name.  A value follows its option as the next argument
or after an equals sign.
-/

namespace Ensemble.CommandLine

inductive Command where
  -- Runs a workflow for a task against transcripts.
  | run (workflow task transcripts : String) (wholeAnswers : Bool)
  | validate (workflow : String)
  deriving DecidableEq

inductive Request where
  | command (c : Command) (logLevel : Option String)
  | version
  | help
  | misuse
  deriving DecidableEq

/-- An option that takes a value, or a mark that takes none. -/
inductive Key where
  | task
  | transcripts
  | wholeAnswers
  | logLevel
  | logJson
  | help
  | version
  deriving DecidableEq

inductive CommandName where
  | run
  | validate
  deriving DecidableEq

def commandName? : String → Option CommandName
  | "run" => some .run
  | "validate" => some .validate
  | _ => none

def longKey? : String → Option Key
  | "task" => some .task
  | "transcripts" => some .transcripts
  | "no-stream" => some .wholeAnswers
  | "log-level" => some .logLevel
  | "log-json" => some .logJson
  | "help" => some .help
  | "version" => some .version
  | _ => none

def shortKey? : Char → Option Key
  | 't' => some .task
  | 'h' => some .help
  | 'V' => some .version
  | _ => none

def Key.takesValue : Key → Bool
  | .task => true
  | .transcripts => true
  | .logLevel => true
  | _ => false

/-- Whether an option with a value accepts it: a path must not be empty. -/
def Key.accepts (k : Key) (value : String) : Bool :=
  k ≠ .transcripts || !value.isEmpty

/-- Whether an option may stand where it stands: before a command, or after the given one. -/
def Key.allowed (k : Key) (command : Option CommandName) : Bool :=
  match k, command with
  | .task, some .run => true
  | .transcripts, some .run => true
  | .wholeAnswers, some .run => true
  | .logLevel, _ => true
  | .logJson, _ => true
  | .help, _ => true
  | .version, none => true
  | _, _ => false

inductive Word where
  | plain (s : String)
  | option (k : Key) (value : Option String)
  -- After it, nothing is an option.
  | separator
  | unknown
  deriving DecidableEq

def afterEquals (cs : List Char) : String :=
  String.ofList (if cs.head? = some '=' then cs.drop 1 else cs)

def longWord (cs : List Char) : Word :=
  let name := cs.takeWhile (· ≠ '=')
  match longKey? (String.ofList name) with
  | none => .unknown
  | some k =>
    match cs.drop name.length with
    | [] => .option k none
    | value => .option k (some (afterEquals value))

/-- What follows the letter of an option is its value; a mark that takes none ends the reading, so
nothing after it matters. -/
def shortWord (c : Char) (rest : List Char) : Word :=
  match shortKey? c with
  | none => .unknown
  | some k =>
    if k.takesValue && !rest.isEmpty then .option k (some (afterEquals rest)) else .option k none

/-- A lone minus sign is no option. -/
def Word.ofString (s : String) : Word :=
  match s.toList with
  | ['-', '-'] => .separator
  | '-' :: '-' :: cs => longWord cs
  | ['-'] => .plain s
  | '-' :: c :: rest => shortWord c rest
  | _ => .plain s

/-- Whether an argument may be the value of the option before it. -/
def isValue (s : String) : Bool :=
  match Word.ofString s with
  | .plain _ => true
  | _ => false

/-- An option with its value and the command after which it stands, if it stands after one. -/
structure GivenOption where
  key : Key
  value : String
  after : Option CommandName
  deriving DecidableEq

structure Reading where
  command : Option CommandName := none
  -- The options, newest first.
  options : List GivenOption := []
  -- The other arguments of the command, newest first.
  operands : List String := []

/-- The value of an option; one after the command goes before one in front of it. -/
def Reading.value? (r : Reading) (k : Key) : Option String :=
  (r.options.find? fun o => o.key = k).map GivenOption.value

def Reading.hasOption (r : Reading) (k : Key) : Bool :=
  r.options.any fun o => o.key = k && o.after = r.command

/-- Takes an argument that is no option: the name of the command first, then its only operand, which
is a path and so not empty. -/
def Reading.addOperand (r : Reading) (s : String) : Option Reading :=
  match r.command with
  | none => (commandName? s).map fun name => { r with command := some name }
  | some _ => if r.operands.isEmpty && !s.isEmpty then some { r with operands := [s] } else none

/-- Takes an option that may stand here and is not there yet. -/
def Reading.addOption (r : Reading) (k : Key) (value : String) : Option Reading :=
  if k.allowed r.command && k.accepts value && !r.hasOption k then
    some { r with options := ⟨k, value, r.command⟩ :: r.options }
  else none

def Reading.finish (r : Reading) : Request :=
  let logLevel := r.value? .logLevel
  match r.command, r.operands.head? with
  | some .validate, some workflow => .command (.validate workflow) logLevel
  | some .run, some workflow =>
    match r.value? .task, r.value? .transcripts with
    | some task, some transcripts =>
      .command (.run workflow task transcripts (r.value? .wholeAnswers).isSome) logLevel
    | _, _ => .misuse
  | _, _ => .misuse

/-- Reads what follows the word `help`: nothing, or the one word that help is asked about. -/
def readTopics : List String → Request
  | [] => .help
  | [topic] => if topic = "help" || (commandName? topic).isSome then .help else .misuse
  | _ => .misuse

/-- Reads arguments that are no options; none of them names the command. -/
def readOperands (r : Reading) : List String → Request
  | [] => r.finish
  | s :: rest =>
    if r.command.isNone then .misuse
    else
      match r.addOperand s with
      | some r => readOperands r rest
      | none => .misuse

def readWords (r : Reading) : List String → Request
  | [] => r.finish
  | s :: rest =>
    match Word.ofString s with
    | .separator => readOperands r rest
    | .unknown => .misuse
    | .plain s =>
      if r.command.isNone && s = "help" then readTopics rest
      else
        match r.addOperand s with
        | some r => readWords r rest
        | none => .misuse
    | .option k (some value) =>
      if !k.takesValue then .misuse
      else
        match r.addOption k value with
        | some r => readWords r rest
        | none => .misuse
    | .option k none =>
      if !k.allowed r.command then .misuse
      else if k = .help then .help
      else if k = .version then .version
      else if k.takesValue then
        match rest with
        | [] => .misuse
        | value :: rest =>
          if isValue value then
            match r.addOption k value with
            | some r => readWords r rest
            | none => .misuse
          else .misuse
      else
        match r.addOption k "" with
        | some r => readWords r rest
        | none => .misuse

def Request.ofArguments (arguments : List String) : Request :=
  readWords {} arguments

end Ensemble.CommandLine
