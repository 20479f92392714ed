import GraphQLDoc.Proofs.Leaves.Basic

/-!
What a tree can be refused for: its literals and names without a meaning, read off the tree from left
to right. A name that is only a name has none, whatever its token.
-/
namespace GraphQLDoc

/-- A problem and where it is. -/
abbrev TreeFault := LiteralProblem × Option Span

/-- The fault that a conversion reports, if it reports one. -/
def reportedFault {α : Type} : Converted α → List TreeFault
  | .error (.literal p span) => [(p, span)]
  | _ => []

namespace ParseTree

/-- The rules whose tokens are words, and not read as literals. -/
def spelledTags : List String := ["name", "enum_name", "fragment_name", "repeatable"]

def tokenFaults (t : ParseTree) : List TreeFault :=
  if t.tag = "INT" then reportedFault (Conversion.integer t)
  else if t.tag = "FLOAT" then reportedFault (Conversion.float t)
  else if t.tag = "STRING" then reportedFault (Conversion.string t)
  else []

/-- The entries of a schema block that repeat one of the operations before. -/
def repeatedRoots (seen : List OperationType) : List ParseTree → List TreeFault
  | [] => []
  | t :: ts =>
    match t.rootOperation? with
    | none => repeatedRoots seen ts
    | some o =>
      if o ∈ seen then (.rootTwice o, t.span?) :: repeatedRoots seen ts
      else repeatedRoots (o :: seen) ts

def enumValueFaults : ParseTree → List TreeFault
  | rule "name" _ [token _ text span] =>
    if text ∈ Conversion.enumValueNames then [(.enumValueName text, some span)] else []
  | _ => []

/-- The name of a fragment is the first of its children. -/
def fragmentFaults : List ParseTree → List TreeFault
  | rule "fragment_name" _ [token _ text span] :: _ =>
    if text = "on" then [(.fragmentName, some span)] else []
  | _ => []

def locationFaults : ParseTree → List TreeFault
  | token _ text span =>
    if (DirectiveLocation.ofWord? text).isNone then [(.location text, some span)] else []
  | rule _ _ _ => []

/-- The faults of a node that are not those of one of its children. -/
def ruleFaults (tag : String) (children : List ParseTree) : List TreeFault :=
  if tag ∈ schemaTags then repeatedRoots [] children
  else if tag = "enum_value_definition" then children.flatMap enumValueFaults
  else if tag = "fragment_definition" then fragmentFaults children
  else if tag = "directive_location" then children.flatMap locationFaults
  else []

mutual

def faults : ParseTree → List TreeFault
  | token tag text span => tokenFaults (token tag text span)
  | rule tag _ children =>
    if tag ∈ spelledTags then [] else ruleFaults tag children ++ faultsIn children

def faultsIn : List ParseTree → List TreeFault
  | [] => []
  | t :: ts => t.faults ++ faultsIn ts

end

variable {t : ParseTree} {ts us : List ParseTree} {tag : String} {span : Option Span}

@[simp] theorem faultsIn_nil : faultsIn [] = [] := by rw [faultsIn]

@[simp] theorem faultsIn_cons : faultsIn (t :: ts) = t.faults ++ faultsIn ts := by rw [faultsIn]

theorem faultsIn_singleton : faultsIn [t] = t.faults := by simp

@[simp] theorem faultsIn_append : faultsIn (ts ++ us) = faultsIn ts ++ faultsIn us := by
  induction ts with
  | nil => simp
  | cons t ts ih => simp [ih]

theorem faults_spelled (h : tag ∈ spelledTags) : (rule tag span ts).faults = [] := by
  rw [faults, if_pos h]

theorem faults_rule (h : tag ∉ spelledTags) :
    (rule tag span ts).faults = ruleFaults tag ts ++ faultsIn ts := by
  rw [faults, if_neg h]

/-- The rules whose nodes have faults of their own. -/
def faultyTags : List String :=
  schemaTags ++ ["enum_value_definition", "fragment_definition", "directive_location"]

/-- Most nodes have the faults of their children only. -/
theorem faults_plain (h : tag ∉ spelledTags ++ faultyTags) :
    (rule tag span ts).faults = faultsIn ts := by
  simp only [faultyTags, List.mem_append, List.mem_cons, List.not_mem_nil, or_false, not_or] at h
  obtain ⟨hspelled, hschema, henum, hfragment, hlocation⟩ := h
  rw [faults_rule hspelled, ruleFaults, if_neg hschema, if_neg henum, if_neg hfragment,
    if_neg hlocation, List.nil_append]

end ParseTree

end GraphQLDoc
