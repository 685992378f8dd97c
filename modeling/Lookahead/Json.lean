import Lookahead.Double

/-!
# Dynamic values

The values that arrive from outside without a type: the variables of an operation and the options
of a request. What is asked of them is whether they hold (`Json.truthy`): null, `false`, a zero and
whatever is empty do not hold, everything else does.
-/

namespace Lookahead

/-- A number is whole, of any size, or a double. -/
inductive Number where
  | whole (value : Int)
  | double (value : Double)
deriving DecidableEq

namespace Number

/-- Equality of the exact values. -/
def same : Number → Number → Bool
  | whole m, whole n => m == n
  | whole n, double x => x.isWhole n
  | double x, whole n => x.isWhole n
  | double x, double y => x == y

def isZero : Number → Bool
  | whole n => n == 0
  | double x => x.isWhole 0

end Number

/-- A dynamic value; the members of an object are in the order in which they were written. -/
inductive Json where
  | null
  | bool (value : Bool)
  | num (value : Number)
  | str (value : String)
  | arr (items : List Json)
  | obj (members : List (String × Json))

namespace Json

def truthy : Json → Bool
  | null => false
  | bool b => b
  | num n => !n.isZero
  | str s => !s.isEmpty
  | arr items => !items.isEmpty
  | obj members => !members.isEmpty

def str? : Json → Option String
  | str s => some s
  | _ => none

end Json

end Lookahead
