import Lookahead.Document
import Lookahead.Json

/-!
# Inclusion directives

`@skip` and `@include` decide whether a selection takes part. A condition is a boolean literal or a
variable; an argument of any other kind decides nothing, and neither does any other directive. A
selection takes part if each of its conditions lets it.
-/

namespace Lookahead

/-- The directives that decide. -/
inductive Inclusion where
  | includeIf
  | skipIf

namespace Inclusion

def ofName? : String → Option Inclusion
  | "include" => some includeIf
  | "skip" => some skipIf
  | _ => none

/-- Whether a directive lets its selection take part, given whether its condition holds. -/
def admits : Inclusion → Bool → Bool
  | includeIf, holds => holds
  | skipIf, holds => !holds

end Inclusion

/-- What an argument value stands for, if it is of a kind that decides. A variable without a value
stands for null. -/
def Value.condition? (vars : Table Json) : Value → Option Json
  | .boolean b => some (.bool b)
  | .var name => some ((vars.lookup name).getD .null)
  | _ => none

/-- Whether the directive called `name` lets its selection take part, given the value of its
condition. -/
def admitsValue (name : String) (value : Json) : Bool :=
  (Inclusion.ofName? name).all (·.admits value.truthy)

def Argument.admits (vars : Table Json) (name : String) (argument : Argument) : Bool :=
  (argument.value.condition? vars).all (admitsValue name)

def Directive.admits (vars : Table Json) (directive : Directive) : Bool :=
  directive.arguments.all (Argument.admits vars directive.name)

/-- Whether directives let their selection take part. -/
def admitted (vars : Table Json) (directives : List Directive) : Bool :=
  directives.all (Directive.admits vars)

theorem admitsValue_of_ofName?_eq_none {name : String} (h : Inclusion.ofName? name = none)
    (value : Json) : admitsValue name value = true := by
  simp [admitsValue, h]

theorem Argument.admits_of_ofName?_eq_none {vars : Table Json} {name : String}
    (h : Inclusion.ofName? name = none) (argument : Argument) :
    argument.admits vars name = true := by
  simp [Argument.admits, Option.all_eq_true, admitsValue_of_ofName?_eq_none h]

theorem Directive.admits_of_ofName?_eq_none {vars : Table Json} {directive : Directive}
    (h : Inclusion.ofName? directive.name = none) : directive.admits vars = true := by
  simp [Directive.admits, Argument.admits_of_ofName?_eq_none h]

@[simp] theorem admitted_nil (vars : Table Json) : admitted vars [] = true := rfl

end Lookahead
