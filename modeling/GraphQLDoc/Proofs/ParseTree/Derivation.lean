import GraphQLDoc.ParseTree.Basic
import GraphQLDoc.Proofs.Automaton.Table

/-!
Derivations of a grammar: each node uses one of its productions, and each leaf is a lexeme of its
terminal. The grammar is a parameter, since canonical documents use only a part of it.
-/
namespace GraphQLDoc

/-- The length of the match of a terminal's pattern at the front of a text. -/
def Pattern.of : Terminal → List Char → Option Nat
  | .name => name
  | .int => int
  | .float => float
  | .string => string
  | .blockString => blockString
  | .keyword k => word k.word
  | .punctuator p => word p.word

/-- The text of the token is a match of its terminal. -/
def Token.IsLexeme (t : Token) : Prop :=
  ∃ text n, Pattern.of t.terminal text = some n ∧ t.text = text.take n

/-- The productions for each nonterminal, and the tokens that may stand for terminals. -/
structure Grammar where
  productions : Nonterminal → List Production
  lexeme : Token → Prop

namespace Grammar

def full : Grammar := ⟨Nonterminal.productions, Token.IsLexeme⟩

/-- Without queries that lack their keyword. -/
def canonical : Grammar :=
  ⟨fun n => n.productions.filter (!Automaton.isShorthand ·), Token.IsLexeme⟩

/-- Only with tokens that also have a property. -/
def only (g : Grammar) (P : Token → Prop) : Grammar := { g with lexeme t := g.lexeme t ∧ P t }

/-- A grammar that leaves out nothing but ways to write operations, and tokens. -/
class IsUsual (g : Grammar) : Prop where
  isLexeme {t : Token} (h : g.lexeme t) : t.IsLexeme
  subset {n : Nonterminal} {p : Production} (h : p ∈ g.productions n) : p ∈ n.productions
  productions_eq {n : Nonterminal} (h : n ≠ .rule .operationDefinition) :
    g.productions n = n.productions

instance : full.IsUsual := ⟨id, id, fun _ => rfl⟩

instance : canonical.IsUsual where
  isLexeme := id
  subset h := (List.mem_filter.mp h).1
  productions_eq {n} h := by
    refine List.filter_eq_self.mpr fun p hp => ?_
    have hhead := Nonterminal.head_of_mem_productions hp
    unfold Automaton.isShorthand
    split
    · rename_i hrule _
      exact absurd (hhead.symm.trans hrule) h
    · rfl

instance {g : Grammar} {P : Token → Prop} [g.IsUsual] : (g.only P).IsUsual :=
  ⟨fun h => IsUsual.isLexeme h.1, fun h => IsUsual.subset (g := g) h,
    fun h => IsUsual.productions_eq (g := g) h⟩

end Grammar

namespace Derivation

def symbol : Derivation → Symbol
  | leaf t => .terminal t.terminal
  | node p _ => .nonterminal p.head

mutual

/-- The nodes are productions of the grammar, the leaves lexemes. -/
def IsOf (g : Grammar) : Derivation → Prop
  | leaf t => g.lexeme t
  | node p children =>
    p ∈ g.productions p.head ∧ children.map symbol = p.body ∧ AllOf g children

def AllOf (g : Grammar) : List Derivation → Prop
  | [] => True
  | d :: ds => d.IsOf g ∧ AllOf g ds

end

variable {g : Grammar}

theorem allOf_iff {ds : List Derivation} : AllOf g ds ↔ ∀ d ∈ ds, d.IsOf g := by
  induction ds with
  | nil => simp [AllOf]
  | cons d ds ih => simp [AllOf, ih]

theorem tokensOfList_append (as bs : List Derivation) :
    tokensOfList (as ++ bs) = tokensOfList as ++ tokensOfList bs := by
  induction as with
  | nil => rfl
  | cons a as ih => simp [tokensOfList, ih]

theorem treesOfList_append (keepsWords : Bool) (as bs : List Derivation) :
    (treesOfList keepsWords (as ++ bs)).1 =
      (treesOfList keepsWords as).1 ++ (treesOfList keepsWords bs).1 := by
  induction as with
  | nil => rfl
  | cons a as ih => simp [treesOfList, ih]

mutual

theorem IsOf.only {P : Token → Prop} :
    (d : Derivation) → d.IsOf g → (∀ t ∈ d.tokens, P t) → d.IsOf (g.only P)
  | leaf t, h, hp => ⟨h, hp t (List.mem_singleton_self t)⟩
  | node _ children, ⟨hp, hbody, hall⟩, ht => ⟨hp, hbody, AllOf.only children hall ht⟩

theorem AllOf.only {P : Token → Prop} :
    (ds : List Derivation) → AllOf g ds → (∀ t ∈ tokensOfList ds, P t) → AllOf (g.only P) ds
  | [], _, _ => trivial
  | d :: ds, ⟨hd, hds⟩, ht =>
    ⟨IsOf.only d hd fun t h => ht t (List.mem_append_left _ h),
      AllOf.only ds hds fun t h => ht t (List.mem_append_right _ h)⟩

end

end Derivation

end GraphQLDoc
