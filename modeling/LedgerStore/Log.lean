set_option autoImplicit false

namespace LedgerStore

inductive LogLevel
  | error
  | warn
  | info
  | debug
  deriving DecidableEq, Repr

def LogLevel.text : LogLevel → String
  | error => "ERROR"
  | warn => "WARN"
  | info => "INFO"
  | debug => "DEBUG"

structure LogLine where
  level : LogLevel
  text : String
  deriving DecidableEq, Repr

def LogLine.render (l : LogLine) : String :=
  l.level.text ++ " " ++ l.text

end LedgerStore
