import FilterShell.Text.Basic

/-!
# Options of the command line

Options choose a filter to apply, or ask for help.  The first argument that is no option is a
module to run, unless a filter was chosen; all arguments from there on belong to the program.
-/

namespace FilterShell.Session

/-- What to run: a filter given as text, or a module by its path. -/
structure Options where
  filter : Option Text := none
  module : Option Text := none

/-- What the command line asks for. -/
inductive Choice where
  | help
  | invalid (option : Text)
  /-- An option at the end needs a filter behind it. -/
  | missing
  | run (options : Options) (arguments : List Text)

/-- What an argument says where options are read. -/
inductive Word where
  /-- The filter is the next argument; at the end it is empty. -/
  | filterNext
  /-- The filter is the next argument, which must be there. -/
  | filterNeeded
  | filter (source : Text)
  | help
  /-- No options follow. -/
  | stop
  | invalid
  | plain

namespace Word

/-- The word that an argument is. -/
def ofText (arg : Text) : Word :=
  if arg = Text.ofString "-c" then .filterNext
  else if let some source := arg.dropStart? "-c" then .filter source
  else if let some source := arg.dropStart? "--filter=" then .filter source
  else if arg = Text.ofString "--filter" then .filterNeeded
  else if arg = Text.ofString "--help" || (arg.dropStart? "-h").isSome then .help
  else if arg = Text.ofString "--" then .stop
  else if (arg.dropStart? "-").isSome && arg.length > 1 then .invalid
  else .plain

end Word

namespace Options

/-- Reads arguments; `reading` tells whether options are still read. -/
def choose (reading : Bool) (o : Options) : List Text → Choice
  | []          => .run o []
  | arg :: rest =>
    match (if reading then Word.ofText arg else .plain) with
    | .filterNext   => match rest with
      | []             => .run { o with filter := some [] } []
      | source :: rest => choose reading { o with filter := some source } rest
    | .filterNeeded => match rest with
      | []             => .missing
      | source :: rest => choose reading { o with filter := some source } rest
    | .filter source => choose reading { o with filter := some source } rest
    | .help         => .help
    | .stop         => choose false o rest
    | .invalid      => .invalid arg
    | .plain        =>
      if o.filter.isNone && o.module.isNone then
        choose false { o with module := some arg } rest
      else .run o (arg :: rest)

/-- What a command line asks for. -/
def ofArguments (arguments : List Text) : Choice := choose true {} arguments

end Options

/-- How the program is used. -/
def usage : Text :=
  "A shell based on jq.

Usage:
  jqsh [<module_file> [<arguments>...]]
  jqsh -c <filter> | --filter=<filter> [<arguments>...]
  jqsh -h | --help

Options:
  -c, --filter=<filter>  Apply this filter to the standard input instead of starting interactive mode.
  -h, --help             Print this message and exit.
"

end FilterShell.Session
