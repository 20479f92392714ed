import GraphQLDoc.Braun
import GraphQLDoc.Grammar.Production

/-!
Items of the grammar: productions with a dot in their body. The construction of the parse table is
written so that it can be evaluated inside a proof: it works on numbers and lists, looks things up
in Braun trees, and forces what it stores.
-/
namespace GraphQLDoc.Automaton

/-- The number of a lookahead, which is its place in sets of lookaheads: the end of the input is
0. -/
def lookaheadNumber : Lookahead → Nat
  | none => 0
  | some .name => 1
  | some .int => 2
  | some .float => 3
  | some .string => 4
  | some .blockString => 5
  | some (.keyword k) => 6 + k.ctorIdx
  | some (.punctuator p) => 25 + p.ctorIdx

/-- The numbers of nonterminals begin behind those of the terminals. -/
def firstNonterminal : Nat := 39

/-- The place of a nonterminal in the list of all. -/
def nonterminalPlace : Nonterminal → Nat
  | .start s => s.ctorIdx
  | .rule r => 3 + r.ctorIdx
  | .repetition r => 76 + r.ctorIdx

def symbolNumber : Symbol → Nat
  | .terminal t => lookaheadNumber (some t)
  | .nonterminal n => firstNonterminal + nonterminalPlace n

/-- One more than the greatest number of a symbol. -/
def symbolBound : Nat := 129

/-- A production and what stands behind the dot in its body. Moving the dot over a symbol adds one
to the number of an item. -/
structure Item where
  number : Nat
  production : Production
  rest : List Symbol

/-- The items that open productions, numbered from `n` on. -/
def openingItems : Nat → List Production → List Item
  | _, [] => []
  | n, p :: ps => ⟨n, p, p.body⟩ :: openingItems (n + p.body.length + 1) ps

def numberAll : Nat → List Nonterminal → List (List Item)
  | _, [] => []
  | n, x :: xs =>
    openingItems n x.productions ::
      numberAll (n + (x.productions.map (·.body.length + 1)).sum) xs

/-- For each nonterminal, by its place, the items that open its productions. -/
def openings : Braun (List Item) := .ofList (numberAll 0 Nonterminal.all)

def openingsAt (place : Nat) : List Item := (openings.get? place).getD []

/-- The items `todo` with all those that they open; `opened` are the nonterminals that need no
opening any more. No more items than `fuel` are gone through. -/
def close : Nat → List Item → List Nat → List Item → List Item
  | 0, _, _, done => done
  | _ + 1, [], _, done => done
  | fuel + 1, i :: todo, opened, done =>
    match i.rest with
    | .nonterminal n :: _ =>
      let place := nonterminalPlace n
      bif opened.elem place then close fuel todo opened (i :: done)
      else close fuel (openingsAt place ++ todo) (place :: opened) (i :: done)
    | _ => close fuel todo opened (i :: done)

/-- Adds an item to a list in the order of numbers. -/
def insertItem (i : Item) : List Item → List Item
  | [] => [i]
  | j :: js => bif i.number.blt j.number then i :: j :: js else j :: insertItem i js

/-- Items with the dot behind a symbol, for each symbol by its number. -/
abbrev Groups := List (Nat × List Item)

def Groups.add (s : Nat) (i : Item) : Groups → Groups
  | [] => [(s, [i])]
  | (t, is) :: rest =>
    bif s.beq t then (t, insertItem i is) :: rest else (t, is) :: Groups.add s i rest

/-- Moves the dots of items over the symbols behind them. -/
def Groups.move : List Item → Groups → Groups
  | [], gs => gs
  | i :: is, gs =>
    match i.rest with
    | [] => Groups.move is gs
    | s :: rest => Groups.move is (gs.add (symbolNumber s) ⟨i.number + 1, i.production, rest⟩)

end GraphQLDoc.Automaton
