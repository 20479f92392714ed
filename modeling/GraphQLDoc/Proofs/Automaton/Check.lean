import GraphQLDoc.Automaton.Table

/-!
A check of the parse table by evaluation. It establishes what the correctness of the parser needs,
so that nothing has to be known of how the table was made. For soundness: the symbols that a state
takes to have been read have been read on every way into it. For completeness: after a body the
table reduces on all that may follow its head in a canonical document, which is one without a bare
selection set in the place of a query; only there does a shift hide a reduction. For both:
reductions come to an end. For the reading of tokens: where a word for a value is wanted, a name is
wanted too, and where a string is wanted, so is a block string. So that a text that breaks off can
always be completed: what a state is known by has been read on every way into it, and leads up to a
whole text; and whatever a state goes on with behind a nonterminal, the reductions to that
nonterminal are allowed on.
-/
namespace GraphQLDoc.Automaton

/-- The symbols read on the way to a state as far as its items tell, the last first. -/
def pastOf (kernel : List Item) : List Nat :=
  kernel.foldl (fun past i =>
    let read := i.production.body.length - i.rest.length
    bif past.length.blt read then ((i.production.body.take read).map symbolNumber).reverse
    else past) []

@[irreducible]
def pasts : Braun (List Nat) := .ofList (cores.map fun c => pastOf c.kernel)

def past (q : Nat) : List Nat := (pasts.get? q).getD []

/-- Lists of numbers are compared number by number. -/
def beginsWith : List Nat → List Nat → Bool
  | [], _ => true
  | _ :: _, [] => false
  | a :: as, b :: bs => a.beq b && beginsWith as bs

/-- Productions are compared by their numbers. -/
def isSame (p r : Production) : Bool :=
  (symbolNumber (.nonterminal p.head)).beq (symbolNumber (.nonterminal r.head)) &&
    p.body.length.beq r.body.length &&
    beginsWith (p.body.map symbolNumber) (r.body.map symbolNumber)

/-- Whether a production is one of the grammar. -/
def isKnown (p : Production) : Bool := p.head.productions.any (isSame · p)

def checkPastAt (s : State) (q : Nat) : Bool :=
  (s.edges.all fun e => beginsWith (past e.target) (e.symbol :: past q)) &&
    s.reductions.all fun r =>
      beginsWith (r.production.body.reverse.map symbolNumber) (past q) && isKnown r.production

def checkPast : Bool :=
  (Start.all.all fun s => (past (startState s)).isEmpty) &&
    states.zipIdx.all fun (s, q) => checkPastAt s q

/-- A query without its keyword. -/
def isShorthand (p : Production) : Bool :=
  match p.head, p.body with
  | .rule .operationDefinition, [_] => true
  | _, _ => false

/-- A set of lookaheads is a part of another. -/
def isWithin (a b : Nat) : Bool := (a ||| b).beq b

/-- The terminals that a nonterminal begins with, found by looking at most `fuel` rules down. -/
def firstOf : Nat → Nonterminal → Nat
  | 0, _ => 0
  | fuel + 1, n =>
    n.productions.foldl (fun set p =>
      bif isShorthand p then set
      else match p.body with
        | .terminal t :: _ => set ||| 1 <<< lookaheadNumber (some t)
        | .nonterminal m :: _ =>
          bif (nonterminalPlace m).beq (nonterminalPlace n) then set else set ||| firstOf fuel m
        | [] => set) 0

@[irreducible]
def firsts : Braun Nat := .ofList (Nonterminal.all.map (firstOf 16))

def first : Symbol → Nat
  | .terminal t => 1 <<< lookaheadNumber (some t)
  | .nonterminal n => (firsts.get? (nonterminalPlace n)).getD 0

def checkFirst : Bool :=
  Nonterminal.all.all fun n => n.productions.all fun p =>
    isShorthand p || match p.body with
      | s :: _ => isWithin (first s) (first (.nonterminal n))
      | [] => false

/-- What follows directly in canonical documents: where definitions are read, no brace. -/
def canonicalRow (es : List Edge) : FollowRow :=
  es.filterMap fun e =>
    bif e.symbol.blt firstNonterminal then none
    else
      let there := (edgeTable.get? e.target).getD []
      let brace := 1 <<< lookaheadNumber (some (.punctuator .braceLeft))
      some (e.symbol,
        bif (target? (symbolNumber (.nonterminal (.rule .definition))) there).isSome then
          (shifted there ||| brace) ^^^ brace
        else shifted there)

@[irreducible]
def canonicalFollow : Follow :=
  handOnAll endings (readings.length * firstNonterminal)
    (Start.all.foldl (fun f s =>
      f.put (startState s) (symbolNumber (.nonterminal (.rule s.rule))) (1 <<< lookaheadNumber none))
      (.ofList (cores.map fun c => canonicalRow c.edges)))

/-- Goes along a body from a state, with a condition on each symbol, on what is behind it and on the
state in front of it, and one on the state at the end. -/
def along (beside : Nat → Symbol → List Symbol → Bool) (atEnd : Nat → Bool) :
    Nat → List Symbol → Bool
  | q, [] => atEnd q
  | q, x :: rest =>
    match (state q).goto? x with
    | none => false
    | some r => along beside atEnd r rest && beside q x rest

/-- At the end of a body that was read where `set` may follow its head. -/
def checkEnd (p : Production) (set : Nat) (s : State) : Bool :=
  (shifted s.edges &&& set).beq 0 &&
    match s.reductions with
    | [r] => isWithin set r.lookaheads && isSame r.production p
    | _ => false

/-- What may follow a symbol of a body where `set` may follow the head. -/
def checkBeside (set q : Nat) : Symbol → List Symbol → Bool
  | .terminal _, _ => true
  | .nonterminal n, [] => isWithin set (canonicalFollow.get q (symbolNumber (.nonterminal n)))
  | .nonterminal n, y :: _ =>
    isWithin (first y) (canonicalFollow.get q (symbolNumber (.nonterminal n)))

/-- Along a body: what may follow each symbol. -/
def checkAlong (p : Production) (set : Nat) : Nat → List Symbol → Bool :=
  along (checkBeside set) fun q => checkEnd p set (state q)

@[irreducible]
def nonterminals : Braun Nonterminal := .ofList Nonterminal.all

/-- A condition on each nonterminal that is read in a state, and on the state behind it. The edges are
gone through and not the nonterminals, of which most are not read in a state. -/
def checkReadingsAt (check : Nat → Nonterminal → Nat → Bool) (s : State) (q : Nat) : Bool :=
  s.edges.all fun e =>
    e.symbol.blt firstNonterminal ||
      match nonterminals.get? (e.symbol - firstNonterminal) with
      | none => false
      | some n => check q n e.target

def checkReading (q : Nat) (n : Nonterminal) (_ : Nat) : Bool :=
  n.productions.all fun p =>
    checkAlong p (canonicalFollow.get q (symbolNumber (.nonterminal n))) q p.body

def checkReadings : Bool := states.zipIdx.all fun (s, q) => checkReadingsAt checkReading s q

/-- In any document, what follows a head is shifted behind its body or lets that be reduced. -/
def checkUpAlong (p : Production) (set : Nat) : Nat → List Symbol → Bool :=
  along
    (fun q x rest => match x, rest with
      | .nonterminal n, [] => isWithin set (follow.get q (symbolNumber (.nonterminal n)))
      | _, _ => true)
    (fun q => match (state q).reductions with
      | [r] => isWithin set (shifted (state q).edges ||| r.lookaheads) && isSame r.production p
      | _ => false)

def checkUp (q : Nat) (n : Nonterminal) (r : Nat) : Bool :=
  let set := follow.get q (symbolNumber (.nonterminal n))
  isWithin (shifted (state r).edges) set && n.productions.all fun p => checkUpAlong p set q p.body

def checkUps : Bool := states.zipIdx.all fun (s, q) => checkReadingsAt checkUp s q

/-! What a state is known by. -/

@[irreducible]
def kernels : Braun (List Item) := .ofList (cores.map Core.kernel)

def kernel (q : Nat) : List Item := (kernels.get? q).getD []

/-- How many symbols stand in front of the dot. -/
def Item.dot (i : Item) : Nat := i.production.body.length - i.rest.length

/-- Whether a symbol is a whole text in a state. -/
def isWhole (q x : Nat) : Bool :=
  Start.all.any fun s =>
    q.beq (startState s) && x.beq (symbolNumber (.nonterminal (.rule s.rule)))

/-- An item of a state that a symbol leads to: the symbol stands in front of the dot, and where there
is more in front of it, the item with the dot moved back is one of the state that the way comes from;
else that is where the head is read. -/
def checkItem (q x : Nat) (i : Item) : Bool :=
  isKnown i.production &&
    match i.dot with
    | 0 => false
    | n + 1 =>
      (match i.production.body[n]? with
        | none => false
        | some y => x.beq (symbolNumber y)) &&
      match n with
      | 0 => match i.production.head with
        | .start _ => true
        | h => ((state q).goto? (.nonterminal h)).isSome
      | n + 1 => (kernel q).any fun j => j.dot.beq (n + 1) && isSame j.production i.production

/-- Whether there is a way on behind a symbol: an item with more than that in front of the dot, or one
whose head is a whole text, or has a way on itself. -/
def goesOn : Nat → Nat → Nat → Bool
  | 0, _, _ => false
  | fuel + 1, q, r => (kernel r).any fun i =>
    (1).blt i.dot || isWhole q (symbolNumber (.nonterminal i.production.head)) ||
      match (state q).goto? (.nonterminal i.production.head) with
      | none => false
      | some r => goesOn fuel q r

def checkEdge (q : Nat) (e : Edge) : Bool :=
  (kernel e.target).all (checkItem q e.symbol) && (isWhole q e.symbol || goesOn 16 q e.target)

def checkEdges : Bool := states.zipIdx.all fun (s, q) => s.edges.all (checkEdge q)

/-- Nothing has been read in front of the items of a start, so that no way leads there. -/
def checkBegin (s : Start) : Bool :=
  !(kernel (startState s)).isEmpty && (kernel (startState s)).all (·.dot.beq 0)

/-- At the end of a whole text the table has nothing more to do. -/
def checkStart (s : Start) : Bool :=
  (canonicalFollow.get (startState s) (symbolNumber (.nonterminal (.rule s.rule)))).testBit
      (lookaheadNumber none) &&
    match (state (startState s)).goto? (.nonterminal (.rule s.rule)) with
    | none => false
    | some q => ((state q).action? none).isNone

/-- The longest way down from a nonterminal through bodies of one symbol, at most `fuel` long. -/
def climbOf : Nat → Nonterminal → Nat
  | 0, _ => 0
  | fuel + 1, n =>
    n.productions.foldl (fun most p =>
      match p.body with
      | [.nonterminal m] => max most (climbOf fuel m + 1)
      | [.terminal _] => max most 1
      | _ => most) 0

@[irreducible]
def climbs : Braun Nat := .ofList (Nonterminal.all.map (climbOf 16))

def climb : Symbol → Nat
  | .terminal _ => 0
  | .nonterminal n => (climbs.get? (nonterminalPlace n)).getD 0

/-- No body is empty, and a reduction of one piece climbs. -/
def checkClimb : Bool :=
  Nonterminal.all.all fun n =>
    (climb (.nonterminal n)).blt Nonterminal.all.length &&
      n.productions.all fun p =>
        match p.body with
        | [] => false
        | [s] => (climb s).blt (climb (.nonterminal n))
        | _ => true

def valueWords : List Keyword := [.trueValue, .falseValue, .nullValue]

/-- Whether a state does something on a lookahead. -/
def State.wants (s : State) (l : Lookahead) : Bool := (s.action? l).isSome

/-- A definition begins with no name, and a value that may be a word may be a name. -/
def checkWords : Bool :=
  !(state (startState .document)).wants (some .name) &&
    states.all fun s => valueWords.all fun k =>
      !s.wants (some (.keyword k)) || s.wants (some .name)

/-- Where a string may stand, a block string may. -/
def checkQuotes : Bool :=
  states.all fun s => !s.wants (some .string) || s.wants (some .blockString)

/-- A symbol that may be a token other than a block string. -/
def isPlain : Symbol → Bool
  | .terminal t => t != .blockString
  | .nonterminal _ => true

/-- Adds the nonterminals with a body that consists of those that are there and of tokens. -/
def addProductive (set : Nat) : Nat :=
  Nonterminal.all.foldl (fun set n =>
    bif n.productions.any fun p => !isShorthand p && p.body.all fun
      | .terminal t => isPlain (.terminal t)
      | .nonterminal m => set.testBit (nonterminalPlace m)
    then set ||| 1 <<< nonterminalPlace n else set) set

/-- The nonterminals that are found to derive something in some rounds. -/
def productive : Nat → Nat
  | 0 => 0
  | n + 1 => addProductive (productive n)

/-- Every nonterminal derives something, and no body ends in a block string. -/
def checkProductive : Bool :=
  Nonterminal.all.all fun n =>
    (productive 8).testBit (nonterminalPlace n) && n.productions.all (·.body.tail.all isPlain)

/-! The checks are evaluated in three parts, each of which makes the tables that it needs: all of
them together take more memory than there should be for one proof. -/

def checkBehind : Bool := checkReadings && Start.all.all checkStart

def checkWanted : Bool := checkUps && checkWords && checkQuotes

def checkItems : Bool :=
  checkPast && checkFirst && checkClimb && checkEdges && Start.all.all checkBegin && checkProductive

set_option maxRecDepth 100000 in
theorem checkBehind_true : checkBehind = true := by decide +kernel

set_option maxRecDepth 100000 in
theorem checkWanted_true : checkWanted = true := by decide +kernel

set_option maxRecDepth 100000 in
theorem checkItems_true : checkItems = true := by decide +kernel

end GraphQLDoc.Automaton
