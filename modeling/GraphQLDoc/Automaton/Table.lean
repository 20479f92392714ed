import GraphQLDoc.Automaton.Lookaheads

/-!
The parse table: what each state does on each lookahead. Where a terminal can be shifted it is
shifted, also where a reduction is allowed on it.
-/
namespace GraphQLDoc

inductive Action where
  | shift (state : Nat)
  | reduce (p : Production)
deriving DecidableEq

namespace Automaton

/-- A production that may be reduced, and on which lookaheads. -/
structure Reduction where
  production : Production
  lookaheads : Nat

structure State where
  edges : List Edge
  reductions : List Reduction

def State.goto? (s : State) (x : Symbol) : Option Nat := target? (symbolNumber x) s.edges

def State.reduction? (s : State) (l : Lookahead) : Option Production :=
  (s.reductions.find? fun r => r.lookaheads.testBit (lookaheadNumber l)).map (·.production)

def State.action? (s : State) (l : Lookahead) : Option Action :=
  let reduction := (s.reduction? l).map Action.reduce
  match l with
  | some t =>
    match s.goto? (.terminal t) with
    | some next => some (.shift next)
    | none => reduction
  | none => reduction

/-- The lookaheads on which a state does something. -/
def State.lookaheads (s : State) : List Lookahead :=
  (none :: Terminal.all.map some).filter fun l => (s.action? l).isSome

def states : List State :=
  cores.zipIdx.map fun (c, n) =>
    ⟨c.edges, (completeItems c.kernel).map fun i => ⟨i.production, reductionSets.get n i.number⟩⟩

def table : Braun State := .ofList states

-- The number is looked at first: the table is evaluated only for a number that is known.
@[irreducible]
def state : Nat → State
  | 0 => (table.get? 0).getD ⟨[], []⟩
  | n + 1 => (table.get? (n + 1)).getD ⟨[], []⟩

end Automaton

end GraphQLDoc
