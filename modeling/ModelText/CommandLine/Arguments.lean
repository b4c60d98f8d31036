/-!
# Command-line arguments

The program has three commands, `serialize`, `deserialize` and `check`, and two options that may
stand before or after the command: the configuration file and the wish for more messages. This
module takes a list of arguments to what is asked for (`Request.ofArguments`), and refuses the list
if it asks for nothing.

An option stands on its own (`--config PATH`, `-c PATH`), with its value attached (`--config=PATH`,
`-cPATH`) or together with other short ones (`-vc PATH`). On either side of the command it may stand
once, and after the command it overrides what stands before. After `--` nothing is an option any
more.

A wish for help, as an option or as the command `help`, ends the reading where it stands. What is
wrong in front of it has been found by then, with one exception: the path of a configuration file
that is an argument of its own waits for the next option, or for the end, before it is looked at
(`Options.settle`). A command is no option, so help that is asked for after it comes first.
-/

namespace ModelText.CommandLine

/-- What to do, and with which files. -/
inductive Command where
  | serialize (entities : List String)
  | deserialize (file : String) (many : Bool)
  | check (entities : List String)
deriving DecidableEq, Repr

/-- A command and the options around it. -/
structure Invocation where
  config : Option String
  verbose : Bool
  command : Command
deriving DecidableEq, Repr

/-- The name of a command. -/
inductive CommandName where
  | serialize
  | deserialize
  | check
deriving DecidableEq, Repr

/-- What help can be asked for: for the program, for a command or for asking for help. -/
inductive Topic where
  | program
  | command (name : CommandName)
  | help
deriving DecidableEq, Repr

/-- What a list of arguments asks for. -/
inductive Request where
  | run (invocation : Invocation)
  | help (topic : Topic)
  | refused
deriving DecidableEq, Repr

/-- The command of a name. -/
def CommandName.ofString? (name : String) : Option CommandName :=
  if name = "serialize" then some .serialize
  else if name = "deserialize" then some .deserialize
  else if name = "check" then some .check
  else none

/-- What a wish for help is about that stands in front of the command, or after it. -/
def Topic.of : Option CommandName → Topic
  | none => .program
  | some name => .command name

/-- The options on one side of the command. A path that is `waiting` has been read, but not yet
taken for the configuration file. -/
structure Options where
  config : Option String := none
  waiting : Option String := none
  verbose : Bool := false
  many : Bool := false
deriving DecidableEq, Repr

/-- Why arguments are not read to their end. -/
inductive Stop where
  | help (topic : Topic)
  | refused
deriving DecidableEq, Repr

namespace Options

/-- Sets the configuration file, which has to have a name and must not be set already. -/
def setConfig (options : Options) (path : String) : Except Stop Options :=
  if options.config.isSome || path.isEmpty then .error .refused
  else .ok { options with config := some path }

/-- Lets a path wait. -/
def wait (options : Options) (path : String) : Options :=
  { options with waiting := some path }

/-- Sets the configuration file to the path that waits, if one does. -/
def settle (options : Options) : Except Stop Options :=
  match options.waiting with
  | none => .ok options
  | some path => { options with waiting := none }.setConfig path

/-- Sets the wish for more messages. -/
def setVerbose (options : Options) : Except Stop Options :=
  if options.verbose then .error .refused else .ok { options with verbose := true }

/-- Sets the wish for many entities, where that can be asked for. -/
def setMany (options : Options) (command : Option CommandName) : Except Stop Options :=
  if options.many || command != some .deserialize then .error .refused
  else .ok { options with many := true }

end Options

/-- Whether an argument is an option rather than a value. -/
def looksLikeOption (argument : String) : Bool :=
  match argument.toList with
  | '-' :: _ :: _ => true
  | _ => false

/-- Takes the value of an option off the arguments that follow it. -/
def takeValue : List String → Except Stop (String × List String)
  | [] => .error .refused
  | value :: rest => if looksLikeOption value then .error .refused else .ok (value, rest)

/-- Short options in one argument, after the dash. -/
def shortOptions (command : Option CommandName) :
    List Char → Options → List String → Except Stop (Options × List String)
  | [], options, rest => .ok (options, rest)
  | c :: cs, options, rest =>
    if c = 'v' then do
      let options ← options.setVerbose
      shortOptions command cs options rest
    else if c = 'm' then do
      let options ← options.setMany command
      shortOptions command cs options rest
    else if c = 'h' then .error (.help (.of command))
    else if c = 'c' then
      match cs with
      | [] => do
        let (value, rest) ← takeValue rest
        return (options.wait value, rest)
      | '=' :: value => do return (← options.setConfig (String.ofList value), rest)
      | value => do return (← options.setConfig (String.ofList value), rest)
    else .error .refused

/-- A long option, after the dashes. -/
def longOption (command : Option CommandName) (text : List Char) (options : Options)
    (rest : List String) : Except Stop (Options × List String) :=
  let name := String.ofList (text.takeWhile (· != '='))
  match text.dropWhile (· != '=') with
  | [] =>
    if name = "config" then do
      let (value, rest) ← takeValue rest
      return (options.wait value, rest)
    else if name = "verbose" then do return (← options.setVerbose, rest)
    else if name = "many" then do return (← options.setMany command, rest)
    else if name = "help" then .error (.help (.of command))
    else .error .refused
  | _ :: value =>
    if name = "config" then do return (← options.setConfig (String.ofList value), rest)
    else .error .refused

/-- The options of an argument that looks like one, with the value after it if it needs one. A path
that waits is looked at first. -/
def option (command : Option CommandName) (argument : String) (options : Options)
    (rest : List String) : Except Stop (Options × List String) := do
  let options ← options.settle
  match argument.toList with
  | '-' :: '-' :: name => longOption command name options rest
  | '-' :: names => shortOptions command names options rest
  | _ => .error .refused

/-- Adds a value to those of a command. It has to be a name, and `deserialize` takes one only. -/
def addValue (command : CommandName) (values : List String) (value : String) :
    Except Stop (List String) :=
  if value.isEmpty || (command == .deserialize && !values.isEmpty) then .error .refused
  else .ok (values ++ [value])

/-- The options and the values that follow a command, `fuel` arguments at most. -/
def afterCommand (command : CommandName) :
    Nat → Options → List String → List String → Except Stop (Options × List String)
  | 0, options, values, _ => do return (← options.settle, values)
  | _ + 1, options, values, [] => do return (← options.settle, values)
  | fuel + 1, options, values, argument :: rest =>
    if argument = "--" then do
      return (← options.settle, ← rest.foldlM (addValue command) values)
    else if looksLikeOption argument then do
      let (options, rest) ← option (some command) argument options rest
      afterCommand command fuel options values rest
    else do
      let values ← addValue command values argument
      afterCommand command fuel options values rest

/-- What the command for help is asked about: one topic at most. -/
def helpAbout : List String → Stop
  | [] => .help .program
  | [name] =>
    if name = "help" then .help .help
    else
      match CommandName.ofString? name with
      | some command => .help (.command command)
      | none => .refused
  | _ => .refused

/-- The options before the command, the command and what follows it, `fuel` arguments at most. -/
def beforeCommand : Nat → Options → List String → Except Stop (Options × CommandName × List String)
  | 0, _, _ => .error .refused
  | _ + 1, _, [] => .error .refused
  | fuel + 1, options, argument :: rest =>
    if argument = "--" then .error .refused
    else if looksLikeOption argument then do
      let (options, rest) ← option none argument options rest
      beforeCommand fuel options rest
    else if argument = "help" then .error (helpAbout rest)
    else
      match CommandName.ofString? argument with
      | some command => .ok (options, command, rest)
      | none => .error .refused

/-- The command of a name with its values, of which there has to be one. -/
def Command.ofValues (command : CommandName) (many : Bool) (values : List String) :
    Except Stop Command :=
  match command, values with
  | _, [] => .error .refused
  | .serialize, values => .ok (.serialize values)
  | .check, values => .ok (.check values)
  | .deserialize, file :: _ => .ok (.deserialize file many)

/-- The invocation that arguments spell. -/
def Invocation.ofArguments (arguments : List String) : Except Stop Invocation := do
  let (outer, name, rest) ← beforeCommand (arguments.length + 1) {} arguments
  let (inner, values) ← afterCommand name (rest.length + 1) {} [] rest
  let outer ← outer.settle
  let command ← Command.ofValues name inner.many values
  return {
    config := inner.config.or outer.config
    verbose := outer.verbose || inner.verbose
    command }

/-- What a list of arguments asks for. -/
def Request.ofArguments (arguments : List String) : Request :=
  match Invocation.ofArguments arguments with
  | .ok invocation => .run invocation
  | .error (.help topic) => .help topic
  | .error .refused => .refused

end ModelText.CommandLine
