import GraphQLDoc.Grammar.Rule

/-!
The grammar in plain form: each optional clause is taken or left out, and each repetition is a
left recursive nonterminal of its own. No production has an empty body, which is what the table
construction relies on.
-/
namespace GraphQLDoc

structure Production where
  head : Nonterminal
  body : List Symbol
deriving DecidableEq

/-- The plain sequences that a list of clauses stands for. -/
def Clause.expand : List Clause → List (List Symbol)
  | [] => [[]]
  | .one s :: rest => (expand rest).map (s :: ·)
  | .optional s :: rest => (expand rest).map (s :: ·) ++ expand rest
  | .oneOrMore r :: rest => (expand rest).map (.nonterminal (.repetition r) :: ·)
  | .zeroOrMore r :: rest =>
    (expand rest).map (.nonterminal (.repetition r) :: ·) ++ expand rest

def Rule.productions (r : Rule) : List Production :=
  r.alternatives.flatMap fun clauses => (Clause.expand clauses).map fun body => ⟨.rule r, body⟩

/-- A list is one element, or a list with one more element behind it. -/
def Repetition.productions (r : Repetition) : List Production :=
  [⟨.repetition r, r.element⟩, ⟨.repetition r, .nonterminal (.repetition r) :: r.element⟩]

def Start.production (s : Start) : Production :=
  ⟨.start s, [.nonterminal (.rule s.rule)]⟩

def Nonterminal.productions : Nonterminal → List Production
  | .start s => [s.production]
  | .rule r => r.productions
  | .repetition r => r.productions

/-- All productions of the grammar. -/
def productions : List Production := Nonterminal.all.flatMap Nonterminal.productions

end GraphQLDoc
