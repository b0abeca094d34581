import PlainSync.Command

/-!
# Reading a command line

Options that every command takes may stand in front of the command's name or behind it; behind
it they count more. Each option takes a value and is given at most once in either place. Arguments
are rows of bytes, as paths are; only the name of a run has to be text.
-/

namespace PlainSync

/-- Why a command line asks for no command. -/
inductive Refusal where
  /-- It asks for help. -/
  | help
  /-- It is not understood. -/
  | misuse
  deriving DecidableEq, Repr

/-- An option. -/
inductive Flag where
  | config
  | log
  | runId
  | output
  | outputDir
  | report
  | artifactIndex
  deriving DecidableEq, Repr

namespace Flag

/-- The options. -/
def all : List Flag := [config, log, runId, output, outputDir, report, artifactIndex]

/-- The name of an option, without the two hyphens in front of it. -/
def name : Flag → String
  | config => "config"
  | log => "log"
  | runId => "run-id"
  | output => "output"
  | outputDir => "output-dir"
  | report => "report"
  | artifactIndex => "artifact-index"

/-- The options that every command takes. -/
def global : List Flag := [config, log, runId]

/-- A value that the option may have. The name of a run is text, and a path is not empty. -/
def admits (flag : Flag) (value : Bytes) : Bool :=
  if flag = runId then (Bytes.toString? value).isSome else !value.isEmpty

end Flag

/-- What an argument is. -/
inductive Argument where
  /-- Two hyphens: no options follow. -/
  | endOfOptions
  | help
  /-- An option, and the value behind its equals sign. -/
  | option (name : Bytes) (value : Option Bytes)
  /-- A group of short options, of which there are none but the one for help. -/
  | shortOptions
  | word
  deriving DecidableEq, Repr

namespace Argument

/-- The byte that options begin with. -/
@[match_pattern] abbrev hyphen : UInt8 := 45

/-- The byte between the name of an option and its value. -/
abbrev equalsSign : UInt8 := 61

/-- The letter of the short option for help. -/
@[match_pattern] abbrev letterH : UInt8 := 104

/-- The name of an option and the value behind its equals sign. -/
def ofLongOption (text : Bytes) : Argument :=
  let name := text.takeWhile (· ≠ equalsSign)
  match text.dropWhile (· ≠ equalsSign) with
  | [] => if name = Bytes.ofString "help" then help else option name none
  | _ :: value => option name (some value)

/-- What an argument is. A single hyphen is a word. -/
def ofBytes (text : Bytes) : Argument :=
  match text with
  | [hyphen, hyphen] => endOfOptions
  | hyphen :: hyphen :: rest => ofLongOption rest
  | [hyphen] => word
  | hyphen :: letterH :: _ => help
  | hyphen :: _ => shortOptions
  | _ => word

end Argument

/-- Options with their values. -/
abbrev Settings := List (Flag × Bytes)

/-- Give an option a value. -/
def Settings.give (settings : Settings) (allowed : List Flag) (name value : Bytes) :
    Except Refusal Settings :=
  match allowed.find? fun flag => Bytes.ofString flag.name == name with
  | none => .error .misuse
  | some flag =>
    if (settings.lookup flag).isSome || !flag.admits value then .error .misuse
    else .ok ((flag, value) :: settings)

/-- Read the options in front of the first word. The word comes back with what follows it. An
option whose value has not been read yet is `pending`. -/
def readOptions (allowed : List Flag) (settings : Settings) (pending : Option Bytes) :
    List Bytes → Except Refusal (Settings × List Bytes)
  | [] => if pending.isSome then .error .misuse else .ok (settings, [])
  | text :: rest =>
    match pending, Argument.ofBytes text with
    | some name, .word => do readOptions allowed (← settings.give allowed name text) none rest
    | some _, _ => .error .misuse
    | none, .word => .ok (settings, text :: rest)
    | none, .option name (some value) => do
      readOptions allowed (← settings.give allowed name value) none rest
    | none, .option name none => readOptions allowed settings (some name) rest
    | none, .help => .error .help
    | none, .shortOptions => .error .misuse
    | none, .endOfOptions => .error .misuse

/-- The name of a command. -/
inductive CommandName where
  | header
  | normalize
  | verify
  | sentinels
  | validateLog
  deriving DecidableEq, Repr

namespace CommandName

/-- The commands. -/
def all : List CommandName := [header, normalize, verify, sentinels, validateLog]

/-- The word for a command. -/
def name : CommandName → String
  | header => "header"
  | normalize => "rewrite"
  | verify => "verify"
  | sentinels => "sentinels"
  | validateLog => "validate-log"

/-- The command of that name. -/
def ofName? (name : Bytes) : Option CommandName :=
  all.find? fun command => Bytes.ofString command.name == name

/-- The options that only this command takes. -/
def flags : CommandName → List Flag
  | header => [.output, .artifactIndex]
  | normalize => [.outputDir, .report, .artifactIndex]
  | verify => [.output]
  | sentinels => []
  | validateLog => []

/-- The options that may stand behind the command. -/
def allFlags (command : CommandName) : List Flag := Flag.global ++ command.flags

/-- The command takes another word behind so many. -/
def admitsWord : CommandName → Nat → Bool
  | normalize, _ => true
  | validateLog, count => count = 0
  | _, _ => false

/-- The command with its options and words. -/
def command (name : CommandName) (settings : Settings) (words : List Path) : Option Command :=
  match name, words with
  | header, [] => some (.header (settings.lookup .output) (settings.lookup .artifactIndex))
  | normalize, input :: more =>
    if (input :: more).any List.isEmpty then none
    else
      some (.normalize (input :: more) (settings.lookup .outputDir) (settings.lookup .report)
        (settings.lookup .artifactIndex))
  | verify, [] => some (.verify (settings.lookup .output))
  | sentinels, [] => some .sentinels
  | validateLog, [path] => if path.isEmpty then none else some (.validateLog path)
  | _, _ => none

end CommandName

/-- Read the options and words behind the name of a command, `count` words having been read. A
word that the command cannot take is refused before anything behind it is looked at. An option
whose value has not been read yet is `pending`. -/
def readArguments (command : CommandName) (settings : Settings) (count : Nat)
    (pending : Option Bytes) : List Bytes → Except Refusal (Settings × List Bytes)
  | [] => if pending.isSome then .error .misuse else .ok (settings, [])
  | text :: rest =>
    match pending, Argument.ofBytes text with
    | some name, .word => do
      readArguments command (← settings.give command.allFlags name text) count none rest
    | some _, _ => .error .misuse
    | none, .word => do
      if text.isEmpty || !command.admitsWord count then throw .misuse
      let (settings, words) ← readArguments command settings (count + 1) none rest
      return (settings, text :: words)
    | none, .option name (some value) => do
      readArguments command (← settings.give command.allFlags name value) count none rest
    | none, .option name none => readArguments command settings count (some name) rest
    | none, .help => .error .help
    | none, .shortOptions => .error .misuse
    | none, .endOfOptions => .ok (settings, rest)

/-- What is asked for behind the word for help: one of the commands, or all of them. -/
def readHelp : List Bytes → Refusal
  | [] => .help
  | [name] =>
    if (CommandName.ofName? name).isSome || name = Bytes.ofString "help" then .help else .misuse
  | _ => .misuse

/-- Read a command line. -/
def Invocation.ofArguments (arguments : List Bytes) : Except Refusal Invocation := do
  match ← readOptions Flag.global [] none arguments with
  | (_, []) => throw .misuse
  | (outer, word :: rest) =>
    if word = Bytes.ofString "help" then throw (readHelp rest)
    match CommandName.ofName? word with
    | none => throw .misuse
    | some name =>
      let (inner, words) ← readArguments name [] 0 none rest
      let value (flag : Flag) : Option Bytes := (inner.lookup flag).or (outer.lookup flag)
      match name.command inner words with
      | none => throw .misuse
      | some command =>
        return { config := value .config
                 log := value .log
                 runId := ((value .runId).bind Bytes.toString?).getD "local"
                 command := command }

/-- What is printed where help is asked for. -/
def helpText : String :=
  "Header emission, __sync rewriting and contract checks for the Centrinel shim\n" ++
  "\n" ++
  "Usage: centrinel-shim [OPTIONS] <COMMAND>\n" ++
  "\n" ++
  "Commands:\n" ++
  "  header        Render the inclusion-point header\n" ++
  "  rewrite       Rewrite __sync built-in call sites in C sources\n" ++
  "  verify        Check every normalized built-in against atomic cells\n" ++
  "  sentinels     Print the sentinel facts and the effective configuration\n" ++
  "  validate-log  Check a log that an earlier run wrote\n" ++
  "\n" ++
  "Options:\n" ++
  "  --config <CONFIG>  File with the configuration (by default, the environment's)\n" ++
  "  --log <LOG>        File to write the log to (by default, there is no log)\n" ++
  "  --run-id <RUN_ID>  Name of the run in the log [default: local]\n"

end PlainSync
