import GraphQLDoc.Json.Reader
import GraphQLDoc.Text.Quoted

/-!
What can be wrong with a YAML text. Most faults make the text invalid, and it does not matter which
one was met. Apart from these stand scalars whose tag names a kind of value that their text does not
denote: such a fault is told by its own message.
-/
namespace GraphQLDoc.Yaml

/-- Why a date and time does not exist. -/
inductive CalendarFault where
  | year
  | month
  | day
  | hour
  | minute
  | second
  /-- A distance from universal time, in seconds, of a day or more. -/
  | offset (seconds : Int)
deriving DecidableEq

/-- Why the text of a scalar is no value of its kind. -/
inductive ScalarFault where
  | boolean (word : List Nat)
  | emptyNumber
  | integer (base : Nat) (digits : List Nat)
  | tooManyDigits (count : Nat)
  | float (text : List Nat)
  | timestamp
  | calendar (fault : CalendarFault)
  /-- An escape in a quoted scalar that names no code point. -/
  | codePoint (n : Nat)
deriving DecidableEq

/-- What keeps the tokens of a text from being put together. -/
inductive NodeProblem where
  | invalid
  /-- Collections are nested in each other too deeply to be gone through. -/
  | tooDeep
  /-- A token is asked for behind those that can be seen. -/
  | cut
deriving DecidableEq

inductive Problem where
  | invalid
  | tooDeep
  | scalar (fault : ScalarFault)
deriving DecidableEq

/-- The problem of a text, by what keeps its tokens from being read. -/
def NodeProblem.problem (stop : Option Problem) : NodeProblem → Problem
  | invalid => .invalid
  | tooDeep => .tooDeep
  | cut => stop.getD .invalid

namespace CalendarFault

def secondsPerDay : Int := 86400

/-- A length of time as days and seconds, of which the days may be negative. -/
def span (seconds : Int) : String :=
  let days := Int.fdiv seconds secondsPerDay
  let rest := Int.fmod seconds secondsPerDay
  let part (name : String) (n : Int) :=
    if n = 0 then [] else [name ++ "=" ++ String.ofList (intText n)]
  "datetime.timedelta(" ++ String.intercalate ", " (part "days" days ++ part "seconds" rest) ++ ")"

def message : CalendarFault → String
  | year => "year 0 is out of range"
  | month => "month must be in 1..12"
  | day => "day is out of range for month"
  | hour => "hour must be in 0..23"
  | minute => "minute must be in 0..59"
  | second => "second must be in 0..59"
  | offset seconds =>
    "offset must be a timedelta strictly between -timedelta(hours=24) and timedelta(hours=24), " ++
      "not " ++
      span seconds ++ "."

end CalendarFault

namespace ScalarFault

/-- The greatest number that an escape may name without being too large to be looked at. -/
def maxWord : Nat := 0x7FFFFFFF

def message : ScalarFault → String
  | boolean word => Quoted.ofPoints word
  | emptyNumber => "string index out of range"
  | integer base digits =>
    "invalid literal for int() with base " ++ decimalText base ++ ": " ++ Quoted.ofPoints digits
  | tooManyDigits count => Json.tooManyDigitsMessage count
  | float text => "could not convert string to float: " ++ Quoted.ofPoints text
  | timestamp => "'NoneType' object has no attribute 'groupdict'"
  | calendar fault => fault.message
  | codePoint n =>
    if n ≤ maxWord then "chr() arg not in range(0x110000)"
    else "Python int too large to convert to C int"

end ScalarFault

end GraphQLDoc.Yaml
