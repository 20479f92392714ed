/-!
The machine under the program, as far as it sets bounds to it.
-/
namespace GraphQLDoc

/-- What the machine grants the program. -/
class Machine where
  /-- How many calls may still be nested in the one that runs. -/
  calls : Nat
  /-- How many characters a text may have. -/
  characters : Nat

namespace Machine

/-- What is left of the machine inside a number of nested calls. -/
@[reducible]
def inside [Machine] (n : Nat) : Machine := ⟨calls - n, characters⟩

/-- The machine inside a number of nested calls, if it grants them. -/
def enter? [Machine] (n : Nat) : Option Machine := if n ≤ calls then some (inside n) else none

/-- What a program of its own starts with: a thousand nested calls, short of those that lead to the
functions here, and a memory of some gigabytes. -/
@[reducible]
def usual : Machine := ⟨960, 4294967296⟩

/-- What is said where calls are nested more deeply. -/
def tooDeepMessage : String := "maximum recursion depth exceeded"

end Machine

end GraphQLDoc
