/-!
# The log

What happens during a parse, line by line: events with a level and the part of the program that they
come from, and the span of the parse as a whole.
-/

namespace Stylesheet

inductive LogLevel where
  | trace
  | debug
  | warn
deriving DecidableEq, Repr

namespace LogLevel

def toText : LogLevel → String
  | .trace => "TRACE"
  | .debug => "DEBUG"
  | .warn => "WARN"

end LogLevel

/-- The parts of the program that log. -/
inductive LogTarget where
  | lexer
  | parser
  | builder
  | pipeline
deriving DecidableEq, Repr

namespace LogTarget

def toText : LogTarget → String
  | .lexer => "horizon_lattice_css::lexer"
  | .parser => "horizon_lattice_css::parser"
  | .builder => "horizon_lattice_css::builder"
  | .pipeline => "horizon_lattice_css::pipeline"

end LogTarget

/-- One entry of the log: the span of a parse begins, is entered and is left, or an event. -/
inductive LogEntry where
  | opened (source : String)
  | entered
  | exited
  | event (level : LogLevel) (target : LogTarget) (message : String)
deriving DecidableEq, Repr

namespace LogEntry

/-- The name of the span of a parse. -/
def spanName : String := "horizon_lattice_css::parse"

def toText : LogEntry → String
  | .opened source =>
    LogLevel.debug.toText ++ " " ++ LogTarget.pipeline.toText ++ " span " ++ spanName ++
      " source=" ++ source
  | .entered => "enter"
  | .exited => "exit"
  | .event level target message => level.toText ++ " " ++ target.toText ++ " " ++ message

end LogEntry

end Stylesheet
