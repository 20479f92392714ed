import GraphQLDoc.Automaton.States

/-!
Which terminals may follow a nonterminal read in a given state. No production is empty, so what
follows is either shifted directly behind the nonterminal, or follows a larger nonterminal that it
ends. A reduction is allowed on what follows its head in the states from which its body was read;
states reached with different such contexts share the union.
-/
namespace GraphQLDoc.Automaton

/-- A nonterminal that is read in a state. -/
structure Reading where
  state : Nat
  head : Nat

/-- A body that has been read from a state, where it is to be reduced to its head. -/
structure Walk where
  reading : Reading
  /-- The item at the end of the production. -/
  complete : Nat
  /-- The state in front of the last symbol. -/
  before : Nat
  last : Nat
  final : Nat

/-- Goes over what is left of a body; `w.before` is the state so far. -/
def Walk.along (w : Walk) : List Symbol → Option Walk
  | [] => none
  | [s] =>
    let last := symbolNumber s
    (goto? w.before last).map fun q => { w with last := last, final := q }
  | s :: rest => (goto? w.before (symbolNumber s)).bind fun q => { w with before := q }.along rest

/-- The walks for a nonterminal that is read in a state. -/
def Reading.walks (r : Reading) : List Walk :=
  (openingsAt (r.head - firstNonterminal)).filterMap fun i =>
    Walk.along ⟨r, i.number + i.production.body.length, r.state, 0, 0⟩ i.production.body

def readingsFrom (state : Nat) (es : List Edge) : List Reading :=
  es.filterMap fun e => bif e.symbol.blt firstNonterminal then none else some ⟨state, e.symbol⟩

/-- All readings with their walks. -/
def readings : List (Reading × List Walk) :=
  (cores.zipIdx.flatMap fun (c, state) => readingsFrom state c.edges).map fun r => (r, r.walks)

/-- Sets of lookaheads in one state, by the numbers of what they belong to. -/
abbrev FollowRow := List (Nat × Nat)

def FollowRow.get (s : Nat) : FollowRow → Nat
  | [] => 0
  | (t, set) :: rest => bif s.beq t then set else FollowRow.get s rest

def FollowRow.put (s set : Nat) : FollowRow → FollowRow
  | [] => []
  | (t, old) :: rest => bif s.beq t then (t, set) :: rest else (t, old) :: FollowRow.put s set rest

/-- The rows of all states. -/
abbrev Follow := Braun FollowRow

def Follow.get (f : Follow) (state s : Nat) : Nat :=
  match Braun.get? f state with
  | some row => row.get s
  | none => 0

def Follow.put (f : Follow) (state s set : Nat) : Follow :=
  match Braun.get? f state with
  | some row => Braun.set (row.put s set) f state
  | none => f

/-- The terminals that a state can shift. -/
def shifted (es : List Edge) : Nat :=
  es.foldl (fun set e =>
    bif e.symbol.blt firstNonterminal then set ||| 1 <<< e.symbol else set) 0

/-- What follows directly in one state: the terminals that can be shifted behind. -/
def directRow (es : List Edge) : FollowRow :=
  es.filterMap fun e =>
    bif e.symbol.blt firstNonterminal then none
    else some (e.symbol, shifted ((edgeTable.get? e.target).getD []))

/-- What follows directly; behind a whole text that is the end of the input. -/
def directFollow : Follow :=
  Start.all.foldl (fun f s =>
    f.put (startState s) (symbolNumber (.nonterminal (.rule s.rule))) (1 <<< lookaheadNumber none))
    (.ofList (cores.map fun c => directRow c.edges))

/-- The walks that end in a nonterminal: what follows their head follows it too. -/
def endings : List Walk :=
  (readings.flatMap (·.2)).filter fun w => firstNonterminal.ble w.last

/-- Hands the lookaheads of each head on to what ends it, and tells whether that was new. -/
def handOn : List Walk → Follow → Bool → Follow × Bool
  | [], f, new => (f, new)
  | w :: ws, f, new =>
    let old := f.get w.before w.last
    let all := old ||| f.get w.reading.state w.reading.head
    bif all.beq old then handOn ws f new else handOn ws (f.put w.before w.last all) true

/-- Hands lookaheads on until nothing is new. -/
def handOnAll (ws : List Walk) : Nat → Follow → Follow
  | 0, f => f
  | n + 1, f =>
    match handOn ws f false with
    | (f, true) => handOnAll ws n f
    | (f, false) => f

/-- All that may follow. Each round but the last adds to one of the sets at least. -/
def follow : Follow := handOnAll endings (readings.length * firstNonterminal) directFollow

/-- The items at the end of their productions. -/
def completeItems (kernel : List Item) : List Item := kernel.filter (·.rest.isEmpty)

/-- Adds lookaheads to the items at the ends of walks. -/
def reduceOn : List (Nat × Walk) → Follow → Follow
  | [], f => f
  | (set, w) :: ws, f =>
    match Braun.get? f w.final with
    | some row =>
      reduceOn ws (Braun.set (row.put w.complete (row.get w.complete ||| set)) f w.final)
    | none => reduceOn ws f

/-- On what the complete items of each state are reduced. -/
def reductionSets : Follow :=
  reduceOn (readings.flatMap fun (r, ws) => ws.map fun w => (follow.get r.state r.head, w))
    (.ofList (cores.map fun c => (completeItems c.kernel).map fun i => (i.number, 0)))

end GraphQLDoc.Automaton
