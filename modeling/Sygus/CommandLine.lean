import Sygus.Example.Reader
import Sygus.Host

/-!
# The command line

The program is called with a file of examples and options. It answers with a line
of output and an exit code: zero if a program was found, one if not or if the
examples cannot be used, two if it was called in a wrong way.

An option is given at most once. Its value follows as the next argument or after an
equals sign; behind the one letter of a short option it may also follow at once. The
next argument is no value if it looks like an option. After `--` nothing is an option.
-/

namespace Sygus

/-- A strategy by its name on the command line. -/
def Strategy.ofName? : String → Option Strategy
  | "top-down" => some topDown
  | "divide-conquer" => some divideAndConquer
  | "constraint-based" => some constraintBased
  | _ => none

/-- A severity, or nothing for a log that is off, by a name in any case. -/
def Level.ofName? (name : String) : Option (Option Level) :=
  match name.toLower with
  | "off" => some none
  | "error" => some (some error)
  | "warn" => some (some warn)
  | "info" => some (some info)
  | "debug" => some (some debug)
  | "trace" => some (some trace)
  | _ => none

namespace CommandLine

/-- A program call as far as it has been read. -/
structure Invocation where
  file : Option String := none
  strategy : Option Strategy := none
  timeout : Option Nat := none
  bound : Option Nat := none
  /-- The least severe events that are logged. -/
  logLevel : Option (Option Level) := none
  deriving DecidableEq, Repr

/-- What a call asks for. -/
inductive Request where
  | help
  | version
  | synthesize (file : String) (call : Invocation)
  deriving DecidableEq, Repr

/-- The options that take a value. -/
inductive Setting where
  | strategy
  | timeout
  | bound
  | logLevel
  deriving DecidableEq, Repr

/-- Sets what has not been set yet. -/
def setOnce {α : Type} (old : Option α) (new : Option α) : Option (Option α) :=
  match old, new with
  | none, some value => some (some value)
  | _, _ => none

/-- A number without a sign. -/
def readCount (s : String) : Option Nat :=
  (Text.readInteger .unsigned64 s.toList).toOption.map Int.toNat

namespace Invocation

/-- Takes an argument that is no option: the one file of the call. -/
def withFile (c : Invocation) (file : String) : Option Invocation :=
  if file.isEmpty then none
  else (setOnce c.file (some file)).map fun file => { c with file }

/-- Takes the value of an option. -/
def withSetting (c : Invocation) (setting : Setting) (value : String) : Option Invocation :=
  match setting with
  | .strategy =>
    (setOnce c.strategy (Strategy.ofName? value)).map fun strategy => { c with strategy }
  | .timeout => (setOnce c.timeout (readCount value)).map fun timeout => { c with timeout }
  | .bound => (setOnce c.bound (readCount value)).map fun bound => { c with bound }
  | .logLevel =>
    (setOnce c.logLevel (Level.ofName? value)).map fun logLevel => { c with logLevel }

/-- A call that has been read to its end needs a file. -/
def finish (c : Invocation) : Option Request := c.file.map fun file => .synthesize file c

end Invocation

/-- How an argument reads on its own. -/
inductive Argument where
  /-- A file name, or the value of the option before it. -/
  | plain (text : String)
  /-- The end of the options. -/
  | separator
  /-- An option that takes a value, with the value if it is attached. -/
  | setting (setting : Setting) (attached : Option String)
  | help
  | version
  | unknown
  deriving DecidableEq, Repr

namespace Argument

/-- An option by its long name. -/
def ofLongName (name : String) (attached : Option String) : Argument :=
  match name, attached with
  | "strategy", value => setting .strategy value
  | "timeout-ms", value => setting .timeout value
  | "max-depth", value => setting .bound value
  | "log-level", value => setting .logLevel value
  | "help", none => help
  | "version", none => version
  | _, _ => unknown

/-- A value written right behind the letter of an option, an equals sign before it being left
out. -/
def attachedTo : List Char → Option String
  | [] => none
  | '=' :: value => some (String.ofList value)
  | value => some (String.ofList value)

/-- An option by its letter and what is written behind it. -/
def ofLetter : Char → List Char → Argument
  | 's', value => setting .strategy (attachedTo value)
  | 't', value => setting .timeout (attachedTo value)
  | 'h', _ => help
  | 'V', _ => version
  | _, _ => unknown

/-- Tells options from other arguments. A dash alone is no option. -/
def ofString (s : String) : Argument :=
  match s.toList with
  | ['-', '-'] => separator
  | '-' :: '-' :: option =>
    match Text.cut? ['='] option with
    | none => ofLongName (String.ofList option) none
    | some (name, value) => ofLongName (String.ofList name) (some (String.ofList value))
  | '-' :: letter :: value => ofLetter letter value
  | _ => plain s

end Argument

/-- Reads the arguments that follow those read as `c`. The first thing wrong with them makes the
whole call wrong, unless help or the version has been asked for before. -/
def read (c : Invocation) : List String → Option Request
  | [] => c.finish
  | arg :: args =>
    match Argument.ofString arg with
    | .plain file => do read (← c.withFile file) args
    | .separator => do (← args.foldlM Invocation.withFile c).finish
    | .setting setting (some value) => do read (← c.withSetting setting value) args
    | .setting setting none =>
      match args with
      | [] => none
      | next :: args =>
        match Argument.ofString next with
        | .plain value => do read (← c.withSetting setting value) args
        | _ => none
    | .help => some .help
    | .version => some .version
    | .unknown => none

/-- What the program answers. -/
structure Response where
  output : String
  /-- What goes to standard error. -/
  complaint : String
  code : UInt8
  deriving DecidableEq, Repr

/-- A run that has been asked for. -/
structure Job where
  settings : Settings
  problem : Problem
  timeout : Option Nat
  logLevel : Option Level

/-- How the program is called. -/
def usage : String :=
  "usage: <EXAMPLES> [-s STRATEGY] [-t TIMEOUT_MS] [--max-depth N] [--log-level LEVEL]\n"

/-- The answer to a call that cannot be understood. -/
def misused : Response := ⟨"", usage, 2⟩

/-- The answer to a call for help. -/
def helped : Response := ⟨usage, "", 0⟩

/-- The answer to a question for the version. -/
def versioned : Response := ⟨"cfgsynth 0.1.0\n", "", 0⟩

/-- The answer to a call that came to nothing. -/
def failed (complaint : String) : Response := ⟨"", complaint ++ "\n", 1⟩

/-- What a call asks to be run, given what its file holds, or the answer if that cannot be done.
The command line has no constraint solver to offer. -/
def prepare (c : Invocation) (contents : Option ByteArray) : Except Response Job :=
  match contents with
  | none => .error (failed "cannot read the examples")
  | some bytes =>
    match String.fromUTF8? bytes with
    | none => .error (failed "the examples are not UTF-8 text")
    | some text =>
      match Example.readAll text with
      | .error e => .error (failed e.message)
      | .ok examples =>
        match c.strategy.getD .topDown with
        | .constraintBased => .error (failed "there is no constraint solver")
        | strategy =>
          .ok
            { settings := { strategy, bound := c.bound }
              problem := ⟨.arithmetic, examples⟩
              timeout := c.timeout
              logLevel := c.logLevel.getD (some .warn) }

/-- The events that are logged. -/
def log (level : Option Level) (events : List Event) : String :=
  match level with
  | none => ""
  | some level =>
    String.join ((events.filter (·.level.rank ≤ level.rank)).map fun e => e.text ++ "\n")

/-- The answer to a call whose job has been run. -/
def conclude (job : Job) : Except Fault Host.Report → Response
  | .error fault => failed fault.message
  | .ok ⟨some p, _, events⟩ => ⟨p.text ++ "\n", log job.logLevel events, 0⟩
  | .ok ⟨none, true, events⟩ => ⟨"<timed out>\n", log job.logLevel events, 1⟩
  | .ok ⟨none, false, events⟩ => ⟨"<no program>\n", log job.logLevel events, 1⟩

/-- The whole of a call: `readFile` tells what a file holds, and `host` runs a job. -/
def answer {m : Type → Type} [Monad m] (args : List String)
    (readFile : String → m (Option ByteArray)) (host : Job → m (Except Fault Host.Report)) :
    m Response :=
  match read {} args with
  | none => return misused
  | some .help => return helped
  | some .version => return versioned
  | some (.synthesize file call) => do
    match prepare call (← readFile file) with
    | .error response => return response
    | .ok job => return conclude job (← host job)

end CommandLine

end Sygus
