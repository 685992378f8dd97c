/-!
# Log records

What is reported beside a result.
-/

namespace Lookahead

inductive LogLevel where
  | debug
  | warning

inductive LogRecord where
  | noFieldNodes
  | noFieldsRequested (fieldName : Option String)
  | branchNotFound (path : String)
  | unknownFragment (name : String)

namespace LogRecord

def level : LogRecord → LogLevel
  | noFieldNodes => .debug
  | noFieldsRequested _ => .debug
  | branchNotFound _ => .debug
  | unknownFragment _ => .warning

def message : LogRecord → String
  | noFieldNodes => "No field nodes on resolve info"
  | noFieldsRequested _ => "No fields requested"
  | branchNotFound _ => "Requested fields branch not found"
  | unknownFragment _ => "Unknown fragment spread in selection"

end LogRecord

/-- A result with the records of how it came about, in order. -/
structure Logged (α : Type) where
  value : α
  records : List LogRecord

end Lookahead
