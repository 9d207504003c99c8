/-
# `CommandLine` — what the command prints

The script comes from the argument, from a file, or from the standard input,
in this order; the configuration from a file and from declarations.  The
first step that fails is reported and ends the run.  Files are a function
here, so that a run is a value: what is printed, and the exit status.
-/
import MatrixScript.CommandLine.Arguments
import MatrixScript.Config.Document
import MatrixScript.Translation.Document
import MatrixScript.Translator

namespace MatrixScript.CommandLine

/-- What a run prints and the status that it exits with. -/
structure Report where
  output : String := ""
  errors : String := ""
  status : Nat := 0
deriving DecidableEq, Repr

/-- Where scripts and configurations are read from. -/
structure Surroundings where
  input : String
  file : String → Except Error String

/-- Lines of text, each ended. -/
def ended (lines : List String) : String := String.join (lines.map (· ++ "\n"))

/-- A line of so many copies of a character. -/
def rule (n : Nat) (c : Char) : String := String.ofList (List.replicate n c)

/-- A failed step after some output. -/
def failed (output : String) (step : String) (e : Error) : Report :=
  { output, errors := ended [step ++ ": " ++ e.message], status := 1 }

/-! ## What goes in -/

/-- The script. -/
def script (around : Surroundings) (a : Arguments) : Except Error String :=
  match a.source, a.file with
  | some text, _ => .ok text
  | none, some path => around.file path
  | none, none => .ok around.input

/-- The configuration without the declared types. -/
def baseConfig (around : Surroundings) (a : Arguments) : Except Error Config :=
  match a.config with
  | none => .ok {}
  | some path =>
      match around.file path with
      | .ok text => Config.ofJson text
      | .error e => .error e

/-! ## What comes out -/

/-- A type and a name that has it. -/
def typedName (entry : String × Datatype) : String := entry.2.typeName ++ " " ++ entry.1

/-- What a verbose run says first. -/
def heading (source : String) (config : Config) : List String :=
  ["Matrix Script to Armadillo Translator", rule 37 '=', "", "Input: " ++ Text.trim source]
    ++ config.declarations.entries.map (fun entry => "Declared: " ++ typedName entry)
    ++ [""]

/-- What a verbose run says behind the lines. -/
def appendix (t : Translation) : List String :=
  [""]
    ++ (if t.suggestions.isEmpty then []
        else
          "Declarations" ::
            t.suggestions.entries.map fun entry => "  " ++ typedName entry ++ " ;")
    ++ (if t.usesTimer then ["  wall_clock _timer ;"] else [])
    ++ (if t.includes.isEmpty then [] else "Helpers" :: t.includes.map fun i => "  " ++ i.helper)

/-- A translation as lines. -/
def listing (verbose : Bool) (t : Translation) : List String :=
  if verbose then ["Translation", rule 50 '-'] ++ t.statements ++ appendix t else t.statements

/-- A diagnostic as a line. -/
def complaint (d : Diagnostic) : String :=
  d.severity.text ++ " [" ++ d.problem.text ++ "] " ++ d.category.name ++ " '" ++ d.label ++ "': "
    ++ d.message

/-- Status of a translation: errors make it fail, and warnings if they count as errors. -/
def statusOf (config : Config) (t : Translation) : Nat :=
  if t.hasErrors || (config.warningsAsErrors && !t.warnings.isEmpty) then 1 else 0

/-- The report of a translation, behind what was printed before it. -/
def reportOf (a : Arguments) (config : Config) (before : String) (t : Translation) : Report :=
  if a.json then { output := before ++ ended [t.json], status := statusOf config t }
  else
    { output := before ++ ended (listing a.verbose t)
      errors := ended (t.diagnostics.map complaint)
      status := statusOf config t }

/-! ## A run -/

/-- Translates a script under a configuration. -/
def runWith (a : Arguments) (source : String) (config : Config) : Report :=
  let before := if a.verbose then ended (heading source config) else ""
  match Tree.parse source with
  | .error e => failed before "Parse error" e
  | .ok tree =>
      match Translator.withConfig config with
      | .error e => failed before "Config error" e
      | .ok t => reportOf a config before (t.translate tree).1

/-- A run with arguments that ask for a translation. -/
def runArguments (around : Surroundings) (a : Arguments) : Report :=
  match script around a with
  | .error e => failed "" "Failed to read script" e
  | .ok source =>
      match baseConfig around a with
      | .error e => failed "" "Config error" e
      | .ok base =>
          match base.declareAll a.declarations with
          | .error e => failed "" "Declaration error" e
          | .ok config => runWith a source config

/-- How the command is called. -/
def usage : String := "Usage: mat2arma [OPTIONS] [SOURCE]"

/-- What the options mean. -/
def help : List String :=
  [ "Translates matrix scripts into typed Armadillo C++", "", usage, "",
    "Arguments:", "  [SOURCE]  Script to translate (e.g., \"y = A * x\")", "",
    "Options:",
    "  -f, --file <FILE>        Read the script from file",
    "  -d, --declare <NAME=TYPE>  Declare variable types (e.g., \"A=mat\")",
    "  -c, --config <FILE>      JSON configuration file",
    "  -j, --json               Output the translation unit as JSON",
    "  -v, --verbose            Verbose output",
    "  -h, --help               Print help",
    "  -V, --version            Print version" ]

/-- What is printed instead of a translation. -/
def stopped : Stop → Report
  | .usage => { errors := ended [usage], status := 2 }
  | .help => { output := ended help }
  | .version => { output := ended ["mat2arma 0.1.0"] }

/-- A run of the command. -/
def run (around : Surroundings) (arguments : List String) : Report :=
  match Arguments.readFrom {} none arguments with
  | .ok a => runArguments around a
  | .error stop => stopped stop

end MatrixScript.CommandLine
