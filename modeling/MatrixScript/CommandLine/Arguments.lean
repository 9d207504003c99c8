/-
# `CommandLine.Arguments` — reading the arguments of the command

A script stands as the one positional argument; options take a value behind
an equals sign, in the same argument, or in the next one; short flags can be
bundled; after `--` everything is positional.  Arguments are looked at from
left to right, and the first that is wrong, or that asks for help or for the
version, ends it.
-/
import MatrixScript.Text.Blank

namespace MatrixScript.CommandLine

/-- Options with a value. -/
inductive ValueOption where
  /-- the file of the script -/
  | file
  /-- a declaration -/
  | declare
  /-- the file of the configuration -/
  | config
deriving DecidableEq, Repr

/-- Options without a value. -/
inductive Flag where
  /-- the translation as a document -/
  | json
  /-- everything about the translation -/
  | verbose
  | help
  | version
deriving DecidableEq, Repr

/-- What an option is. -/
inductive Switch where
  | value (o : ValueOption)
  | flag (f : Flag)
deriving DecidableEq, Repr

/-- The option of a long name. -/
def Switch.ofLong? (name : String) : Option Switch :=
  [ ("file", value .file), ("declare", value .declare), ("config", value .config),
    ("json", flag .json), ("verbose", flag .verbose), ("help", flag .help),
    ("version", flag .version) ].lookup name

/-- The option of a letter. -/
def Switch.ofShort? (letter : Char) : Option Switch :=
  [ ('f', value .file), ('d', value .declare), ('c', value .config), ('j', flag .json),
    ('v', flag .verbose), ('h', flag .help), ('V', flag .version) ].lookup letter

/-- What is asked for instead of a translation, or why nothing can be. -/
inductive Stop where
  | usage
  | help
  | version
deriving DecidableEq, Repr

/-- What a translation is asked with. -/
structure Arguments where
  source : Option String := none
  file : Option String := none
  config : Option String := none
  declarations : List (String × String) := []
  json : Bool := false
  verbose : Bool := false
deriving DecidableEq, Repr

namespace Arguments

/-! ## One argument -/

/-- The characters on both sides of the first equals sign. -/
def splitAtEquals (cs : List Char) : List Char × Option (List Char) :=
  match cs.dropWhile (· != '=') with
  | [] => (cs, none)
  | _ :: after => (cs.takeWhile (· != '='), some after)

/-- Name and type of a declaration: exactly one equals sign, something on both
sides of it; blanks around both are taken off. -/
def declaration? (text : String) : Option (String × String) :=
  match splitAtEquals text.toList with
  | (name, some type) =>
      if name.isEmpty || type.isEmpty || type.contains '=' then none
      else some (Text.trim (String.ofList name), Text.trim (String.ofList type))
  | (_, none) => none

/-- Gives an option its value; only declarations can be repeated. -/
def withValue (a : Arguments) (text : String) :
    ValueOption → Except Stop Arguments
  | .file => if a.file.isSome then .error .usage else .ok { a with file := some text }
  | .config => if a.config.isSome then .error .usage else .ok { a with config := some text }
  | .declare =>
      match declaration? text with
      | some d => .ok { a with declarations := a.declarations ++ [d] }
      | none => .error .usage

/-- Sets a flag, which cannot be set twice. -/
def withFlag (a : Arguments) : Flag → Except Stop Arguments
  | .json => if a.json then .error .usage else .ok { a with json := true }
  | .verbose => if a.verbose then .error .usage else .ok { a with verbose := true }
  | .help => .error .help
  | .version => .error .version

/-- Takes a positional argument; there is only one. -/
def withSource (a : Arguments) (text : String) : Except Stop Arguments :=
  if a.source.isSome then .error .usage else .ok { a with source := some text }

/-- What an argument that starts with a minus leaves: arguments, and the option
that waits for its value. -/
abbrev Progress := Except Stop (Arguments × Option ValueOption)

/-- An option by its long name. -/
def long (a : Arguments) (cs : List Char) : Progress :=
  let (name, attached) := splitAtEquals cs
  match Switch.ofLong? (String.ofList name), attached with
  | some (.value o), none => .ok (a, some o)
  | some (.value o), some text => do return (← a.withValue (String.ofList text) o, none)
  | some (.flag f), none => do return (← a.withFlag f, none)
  | _, _ => .error .usage

/-- Value of a letter's option in the same argument, if there is one. -/
def attachedValue? : List Char → Option (List Char)
  | [] => none
  | '=' :: text => some text
  | text => some text

/-- Options by their letters. -/
def short (a : Arguments) : List Char → Progress
  | [] => .ok (a, none)
  | letter :: rest =>
      match Switch.ofShort? letter with
      | none => .error .usage
      | some (.flag f) =>
          match a.withFlag f with
          | .ok a => short a rest
          | .error stop => .error stop
      | some (.value o) =>
          match attachedValue? rest with
          | none => .ok (a, some o)
          | some text => do return (← a.withValue (String.ofList text) o, none)

/-- An argument that starts with a minus and is not a minus alone. -/
def looksLikeOption (cs : List Char) : Bool := cs.head? == some '-' && 1 < cs.length

/-- One argument in front of `--`. -/
def option (a : Arguments) : List Char → Progress
  | '-' :: '-' :: cs => long a cs
  | _ :: cs => short a cs
  | [] => .ok (a, none)

/-! ## All arguments -/

/-- Positional arguments only. -/
def positional (a : Arguments) : List String → Except Stop Arguments
  | [] => .ok a
  | text :: rest =>
      match a.withSource text with
      | .ok a => positional a rest
      | .error stop => .error stop

/-- Arguments from left to right; `waiting` is the option that the next one is
the value of. -/
def readFrom (a : Arguments) (waiting : Option ValueOption) :
    List String → Except Stop Arguments
  | [] => if waiting.isSome then .error .usage else .ok a
  | text :: rest =>
      match waiting with
      | some o =>
          if looksLikeOption text.toList then .error .usage
          else
            match a.withValue text o with
            | .ok a => readFrom a none rest
            | .error stop => .error stop
      | none =>
          if text = "--" then positional a rest
          else if looksLikeOption text.toList then
            match option a text.toList with
            | .ok (a, waiting) => readFrom a waiting rest
            | .error stop => .error stop
          else
            match a.withSource text with
            | .ok a => readFrom a none rest
            | .error stop => .error stop

end Arguments

end MatrixScript.CommandLine
