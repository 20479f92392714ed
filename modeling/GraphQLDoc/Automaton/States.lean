import GraphQLDoc.Automaton.Items

/-!
The states of the grammar's automaton: sets of items that agree on the text read so far, each found
from a start item by moving the dot. A state is known by its items before closing.
-/
namespace GraphQLDoc.Automaton

/-- The way from a state over the symbol with a number. -/
structure Edge where
  symbol : Nat
  target : Nat

def target? (s : Nat) : List Edge → Option Nat
  | [] => none
  | e :: es => bif s.beq e.symbol then some e.target else target? s es

/-- A state that has been found, with a number that stands for its items. -/
structure Found where
  key : Nat
  state : Nat

/-- The states found so far, by the symbol that leads into them. -/
abbrev FoundStates := Braun (List Found)

/-- The digits of the key are the numbers of the items. -/
def keyOf (kernel : List Item) : Nat := kernel.foldl (fun key i => 2048 * key + i.number) 0

def findKey (key : Nat) : List Found → Option Nat
  | [] => none
  | f :: fs => bif key.beq f.key then some f.state else findKey key fs

/-- What is known while states are found: those that there are, how many, and the items of those
that are still to be worked through, the last first. -/
structure Progress where
  found : FoundStates
  count : Nat
  later : List (List Item)

/-- Looks up the states behind one state, giving a new one the next number. -/
def link : Groups → List Edge → Progress → List Edge × Progress
  | [], es, p => (es, p)
  | (s, kernel) :: gs, es, p =>
    let key := keyOf kernel
    let there := (p.found.get? s).getD []
    match findKey key there with
    | some q => link gs (⟨s, q⟩ :: es) p
    | none =>
      link gs (⟨s, p.count⟩ :: es)
        ⟨p.found.set (⟨key, p.count⟩ :: there) s, p.count + 1, kernel :: p.later⟩

/-- A state with the items that it is known by. -/
structure Core where
  kernel : List Item
  edges : List Edge

/-- Works through states in the order of their numbers: those at hand, then the later ones. -/
def explore : Nat → List (List Item) → Progress → List Core
  | 0, _, _ => []
  | n + 1, [], p =>
    match p.later with
    | [] => []
    | kernel :: later => explore n (kernel :: later).reverse { p with later := [] }
  | n + 1, kernel :: now, p =>
    match link (Groups.move (close 2048 kernel [] []) []) [] p with
    | (es, p) => ⟨kernel, es⟩ :: explore n now p

/-- The automaton of this grammar has fewer states than this. -/
def stateBound : Nat := 1000

/-- One state for each start, numbered in the order of `Start.all`. -/
def startKernels : List (List Item) :=
  Start.all.map fun s => openingsAt (nonterminalPlace (.start s))

def cores : List Core :=
  explore stateBound startKernels ⟨.ofList (List.replicate symbolBound []), 3, []⟩

def edgeTable : Braun (List Edge) := .ofList (cores.map Core.edges)

def startState : Start → Nat
  | .document => 0
  | .value => 1
  | .type => 2

def goto? (state : Nat) (s : Nat) : Option Nat := (edgeTable.get? state).bind (target? s)

end GraphQLDoc.Automaton
