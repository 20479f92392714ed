import GraphQLDoc.Proofs.Yaml.Tokens
import GraphQLDoc.Yaml.Document

/-!
Checking the nodes of a YAML text. Merging changes what mappings hold but neither scalars nor the kinds
of values that nodes are said to be, so that a fault which is met was in the text from the beginning.
-/
namespace GraphQLDoc.Yaml

/-- Why a text, which may hold surrogates, is no value of the kind that a tag names. -/
def pointsFault? (tag : Tag) (text : List Nat) : Option ScalarFault :=
  match textOfPoints? text with
  | some cs =>
    match Value.fault? tag cs with
    | some (.scalar f) => some f
    | _ => none
  | none =>
    match tag with
    | .bool => some (.boolean text)
    | .int => some (.integer 10 text)
    | .float => some (.float text)
    | .timestamp => some .timestamp
    | _ => none

/-- The kinds of values that have texts of their own. -/
def Tag.isChecked : Tag → Bool
  | .bool | .int | .float | .timestamp => true
  | _ => false

theorem isChecked_of_pointsFault {tag : Tag} {text : List Nat} {f : ScalarFault}
    (h : pointsFault? tag text = some f) : tag.isChecked = true := by
  unfold pointsFault? at h
  split at h
  · cases tag <;> first | rfl | simp [Value.fault?] at h
  · cases tag <;> first | rfl | cases h

namespace Graph

/-- A node whose tag names a kind of value, and a scalar that is no such value: it is the node itself,
or what stands for the node, which is a mapping. -/
def NodeFault (g : Graph) (f : ScalarFault) : Prop :=
  ∃ id i text, (i = id ∨ (g.entries? id).isSome) ∧ g.body i = .scalar text ∧
    pointsFault? (g.tag id) text = some f

/-- What checking makes of a graph: mappings may hold other entries, and keys for defaults may be
texts. -/
structure Follows (g h : Graph) : Prop where
  tag : ∀ id, h.tag id = g.tag id ∨ h.tag id = .str
  body : ∀ id, h.body id = g.body id ∨ (g.entries? id).isSome ∧ (h.entries? id).isSome

namespace Follows

variable {g h k : Graph}

theorem refl (g : Graph) : Follows g g := ⟨fun _ => .inl rfl, fun _ => .inl rfl⟩

theorem mapping (hgh : Follows g h) (id : Nat) : (h.entries? id).isSome = (g.entries? id).isSome := by
  rcases hgh.body id with hsame | ⟨hg, hh⟩
  · unfold entries?
    rw [hsame]
  · rw [hg, hh]

theorem trans (hgh : Follows g h) (hhk : Follows h k) : Follows g k where
  tag id := by
    rcases hhk.tag id with htag | htag
    · exact htag ▸ hgh.tag id
    · exact .inr htag
  body id := by
    rcases hhk.body id with hsame | ⟨hh, hk⟩
    · rcases hgh.body id with hsame' | ⟨hg, hh⟩
      · exact .inl (hsame.trans hsame')
      · exact .inr ⟨hg, by rwa [hhk.mapping id]⟩
    · exact .inr ⟨by rwa [← hgh.mapping id], hk⟩

theorem nodeFault (hgh : Follows g h) {f : ScalarFault} (hf : h.NodeFault f) : g.NodeFault f := by
  obtain ⟨id, i, text, hi, hbody, hfault⟩ := hf
  refine ⟨id, i, text, hgh.mapping id ▸ hi, ?_, ?_⟩
  · rcases hgh.body i with hsame | ⟨-, hmapping⟩
    · exact hsame ▸ hbody
    · rw [entries?, hbody] at hmapping
      cases hmapping
  · rcases hgh.tag id with htag | htag
    · exact htag ▸ hfault
    · rw [htag] at hfault
      cases isChecked_of_pointsFault hfault

end Follows

/-- A change of one node. -/
theorem follows_modify {g : Graph} {id : Nat} {change : Node → Node}
    (htag : ∀ n, (change n).tag = n.tag ∨ (change n).tag = .str)
    (hbody : ∀ n, (change n).body = n.body ∨
      (g.entries? id).isSome ∧ ∃ entries, (change n).body = .mapping entries) :
    Follows g (g.modify id change) := by
  have hnode (i : Nat) (hi : i ≠ id) : (g.modify id change)[i]? = g[i]? := by
    rw [Array.getElem?_modify, if_neg (Ne.symm hi)]
  have hchanged : (g.modify id change)[id]? = g[id]?.map change := by
    rw [Array.getElem?_modify, if_pos rfl]
  refine ⟨fun i => ?_, fun i => ?_⟩
  · by_cases hi : i = id
    · unfold tag
      rw [hi, hchanged]
      cases g[id]? with
      | none => exact .inl rfl
      | some n => exact htag n
    · unfold tag
      rw [hnode i hi]
      exact .inl rfl
  · by_cases hi : i = id
    · subst hi
      cases hn : g[i]? with
      | none =>
        unfold body
        rw [hchanged, hn]
        exact .inl rfl
      | some n =>
        rcases hbody n with hsame | ⟨hmapping, entries, hentries⟩
        · unfold body
          rw [hchanged, hn]
          exact .inl hsame
        · refine .inr ⟨hmapping, ?_⟩
          unfold entries? body
          rw [hchanged, hn]
          simp [hentries]
    · unfold body
      rw [hnode i hi]
      exact .inl rfl

theorem follows_setEntries {g : Graph} {id : Nat} (h : (g.entries? id).isSome)
    (entries : List (Nat × Nat)) : Follows g (g.setEntries id entries) :=
  follows_modify (fun _ => .inl rfl) fun _ => .inr ⟨h, entries, rfl⟩

theorem follows_plainKeys (entries : List (Nat × Nat)) (g : Graph) :
    Follows g (plainKeys entries g) := by
  unfold plainKeys
  induction entries generalizing g with
  | nil => exact .refl g
  | cons entry rest ih =>
    refine Follows.trans (follows_modify (fun n => ?_) fun n => .inl ?_) (ih _)
    · split
      · exact .inr rfl
      · exact .inl rfl
    · split <;> rfl

/-- What every step of a run that may fail keeps holds at its end. -/
theorem foldlM_keeps {α β : Type} {P : β → Prop} {step : β → α → Option β} {list : List α}
    (hstep : ∀ a ∈ list, ∀ b c, P b → step b a = some c → P c) {b c : β} (hb : P b)
    (h : list.foldlM step b = some c) : P c := by
  induction list generalizing b with
  | nil => exact Option.some.inj h ▸ hb
  | cons a rest ih =>
    obtain ⟨ha, hrest⟩ := List.forall_mem_cons.mp hstep
    rw [List.foldlM_cons] at h
    obtain ⟨b', hb', h⟩ := Option.bind_eq_some_iff.mp h
    exact ih hrest (ha b b' hb hb') h

theorem mappings_of_merged {g : Graph} {id : Nat} {mappings : List Nat}
    (h : g.mergedMappings? id = some mappings) : ∀ m ∈ mappings, (g.entries? m).isSome := by
  unfold mergedMappings? at h
  split at h
  · rename_i entries hbody
    obtain rfl := Option.some.inj h
    intro m hm
    rw [List.mem_singleton.mp hm, entries?, hbody]
    rfl
  · split at h
    · rename_i items hbody hall
      obtain rfl := Option.some.inj h
      exact fun m hm => List.all_eq_true.mp hall m (List.mem_reverse.mp hm)
    · cases h
  · cases h

theorem follows_merge {fuel id : Nat} {g h : Graph} (hid : (g.entries? id).isSome)
    (hmerge : merge fuel id g = some h) : Follows g h := by
  induction fuel generalizing id g h with
  | zero => exact Option.some.inj hmerge ▸ .refl g
  | succ fuel ih =>
    rw [merge] at hmerge
    generalize List.partition _ _ = parts at hmerge
    obtain ⟨named, own⟩ := parts
    obtain ⟨⟨k, taken⟩, hnamed, hmerge⟩ := Option.bind_eq_some_iff.mp hmerge
    obtain rfl := Option.some.inj hmerge
    have hown : Follows g (plainKeys own (g.setEntries id own)) :=
      (follows_setEntries hid own).trans (follows_plainKeys own _)
    have hk : Follows g k := by
      refine foldlM_keeps (P := fun state => Follows g state.1) (fun entry _ state next hstate hnext => ?_)
        hown hnamed
      obtain ⟨mappings, hmappings, hnext⟩ := Option.bind_eq_some_iff.mp hnext
      obtain ⟨merged, hmerged, hnext⟩ := Option.bind_eq_some_iff.mp hnext
      obtain rfl := Option.some.inj hnext
      have hmapping := mappings_of_merged hmappings
      -- all of them stay mappings while they are merged in turn
      refine hstate.trans (foldlM_keeps (P := Follows state.1) (fun m hm b c hb hc => ?_) (.refl _)
        hmerged)
      exact hb.trans (ih ((hb.mapping m).trans (hmapping m (List.mem_reverse.mp hm))) hc)
    exact hk.trans (follows_setEntries ((hk.mapping id).trans hid) _)

/-- The text of a node is that of a scalar. -/
theorem scalar_of_text {g : Graph} {id : Nat} {text : List Nat} (h : g.text? id = some text) :
    ∃ i, (i = id ∨ (g.entries? id).isSome) ∧ g.body i = .scalar text := by
  have hwithin (fuel id : Nat) (h : g.textWithin fuel id = some text) :
      ∃ i, (i = id ∨ (g.entries? id).isSome) ∧ g.body i = .scalar text := by
    induction fuel generalizing id with
    | zero => cases h
    | succ fuel ih =>
      rw [textWithin] at h
      split at h
      · rename_i text' hbody
        exact ⟨id, .inl rfl, Option.some.inj h ▸ hbody⟩
      · cases h
      · rename_i entries hbody
        obtain ⟨entry, -, h⟩ := Option.bind_eq_some_iff.mp h
        obtain ⟨i, -, hi⟩ := ih _ h
        exact ⟨i, .inr (by rw [entries?, hbody]; rfl), hi⟩
  exact hwithin _ id h

theorem nodeFault_of_text {g : Graph} {id : Nat} {text : List Nat} {f : ScalarFault}
    (htext : g.text? id = some text) (h : pointsFault? (g.tag id) text = some f) : g.NodeFault f := by
  obtain ⟨i, hi, hbody⟩ := scalar_of_text htext
  exact ⟨id, i, text, hi, hbody, h⟩

end Graph

namespace Checking

open Yaml.Graph

/-- What checking a part comes to: a graph that follows from the one before, or a fault of a node. -/
def Checks (g : Graph) : Except Problem Checking → Prop
  | .ok c => Follows g c.graph
  | .error p => p.HasCause g.NodeFault

namespace Checks

variable {g h : Graph} {r : Except Problem Checking}

theorem mono (hr : Checks h r) (hgh : Follows g h) : Checks g r := by
  cases r with
  | ok c => exact Follows.trans hgh hr
  | error p =>
    cases p with
    | invalid => trivial
    | tooDeep => exact hr
    | scalar f => exact hgh.nodeFault hr

theorem bind {next : Checking → Except Problem Checking} (hr : Checks g r)
    (hnext : ∀ c, Checks c.graph (next c)) : Checks g (r >>= next) := by
  cases r with
  | ok c => exact (hnext c).mono hr
  | error p => cases p <;> exact hr

theorem foldlM {α : Type} {step : Checking → α → Except Problem Checking}
    (hstep : ∀ c a, Checks c.graph (step c a)) (list : List α) (c : Checking) :
    Checks c.graph (list.foldlM step c) := by
  induction list generalizing c with
  | nil => exact .refl _
  | cons a rest ih =>
    rw [List.foldlM_cons]
    exact (hstep c a).bind ih

end Checks

/-- A scalar is not nested. -/
theorem fault?_ne_tooDeep (tag : Tag) (cs : List Char) : Value.fault? tag cs ≠ some .tooDeep := by
  unfold Value.fault?
  repeat' split
  all_goals simp

theorem meet_checks (c : Checking) (id : Nat) : Checks c.graph (c.meet id) := by
  -- surrogates stand in no text of another kind than a string
  have hsurrogates {text : List Nat} {f : ScalarFault} {tag : Tag}
      (htext : c.graph.text? id = some text) (htag : c.graph.tag id = tag)
      (h : pointsFault? tag text = some f) : Checks c.graph (.error (.scalar f)) :=
    nodeFault_of_text htext (htag ▸ h)
  fun_cases meet with
  | case1 => exact .refl _
  | case2 => exact .refl _
  | case3 => trivial
  | case4 hmet c' hcollection text htext cs hcs p hp =>
    cases p with
    | invalid => trivial
    | tooDeep => exact absurd hp (fault?_ne_tooDeep _ _)
    | scalar f =>
      refine nodeFault_of_text htext ?_
      simp only [pointsFault?, hcs]
      rw [hp]
  | case5 => exact .refl _
  | case6 => exact .refl _
  | case7 => exact .refl _
  | case8 hmet c' hcollection text htext hnone htag =>
    exact hsurrogates htext htag (by simp only [pointsFault?, hnone])
  | case9 hmet c' hcollection text htext hnone htag =>
    exact hsurrogates htext htag (by simp only [pointsFault?, hnone])
  | case10 hmet c' hcollection text htext hnone htag =>
    exact hsurrogates htext htag (by simp only [pointsFault?, hnone])
  | case11 hmet c' hcollection text htext hnone htag =>
    exact hsurrogates htext htag (by simp only [pointsFault?, hnone])
  | case12 => trivial

theorem meetEntry_checks (c : Checking) (entry : Nat × Nat) :
    Checks c.graph (c.meetEntry entry) := by
  refine (meet_checks c entry.1).bind fun c' => ?_
  dsimp only
  split
  · trivial
  · exact meet_checks c' entry.2

theorem meetPair_checks (c : Checking) (id : Nat) : Checks c.graph (c.meetPair id) := by
  fun_cases meetPair with
  | case1 key value hentries => exact (meet_checks c key).bind fun c' => meet_checks c' value
  | case2 => trivial

theorem content_checks (c : Checking) (id : Nat) : Checks c.graph (c.content id) := by
  unfold content
  split
  · split
    · exact .foldlM meet_checks _ c
    · trivial
  · split
    · exact .foldlM meetPair_checks _ c
    · trivial
  · split
    · exact .foldlM meetPair_checks _ c
    · trivial
  · split
    · trivial
    · rename_i hentries
      split
      · trivial
      · rename_i graph hmerge
        have hid : (c.graph.entries? id).isSome := by
          cases hn : c.graph.entries? id with
          | none => exact absurd (by rw [hn]; rfl) hentries
          | some => rfl
        exact Checks.mono (Checks.foldlM meetEntry_checks _ { c with graph })
          (follows_merge hid hmerge)

theorem hasCause_of_run {fuel : Nat} {c : Checking} {p : Problem} (h : run fuel c = .error p) :
    p.HasCause c.graph.NodeFault := by
  induction fuel generalizing c with
  | zero => cases h
  | succ fuel ih =>
    rw [run] at h
    split at h
    · cases h
    · rename_i id waiting hwaiting
      have hcontent := content_checks { c with waiting } id
      cases hresult : content { c with waiting } id with
      | error p =>
        rw [hresult] at h hcontent
        cases h
        exact hcontent
      | ok c' =>
        rw [hresult] at h hcontent
        exact Checks.mono (r := .error p) (ih h) hcontent

end Checking

/-- A fault of a text is met in its tokens or in its nodes. -/
inductive HasFault [Machine] (text : List Char) (f : ScalarFault) : Prop where
  | token (h : TokenFault text f)
  | node {g : Graph} {root : Nat} (hgraph : Graph.ofScan (scan text) = .ok (g, some root))
      (h : g.NodeFault f)

/-- The collections of a text are nested more deeply than the machine grants calls for. -/
def IsTooDeep [Machine] (text : List Char) : Prop := Graph.ofScan (scan text) = .error .tooDeep

/-- What keeps a text from being read: it is invalid, or there is a cause. -/
def Problem.IsOf [Machine] (text : List Char) : Problem → Prop
  | invalid => True
  | tooDeep => IsTooDeep text
  | scalar f => HasFault text f

theorem Problem.HasCause.isOf [Machine] {text : List Char} {p : Problem} {cause : ScalarFault → Prop}
    (h : p.HasCause cause) (hcause : ∀ f, cause f → HasFault text f) : p.IsOf text := by
  cases p with
  | invalid => trivial
  | tooDeep => exact h.elim
  | scalar f => exact hcause f h

theorem Document.isOf_of_read [Machine] {text : List Char} {p : Problem}
    (h : Document.read text = .error p) : p.IsOf text := by
  unfold Document.read at h
  dsimp only [bind, Except.bind] at h
  cases hgraph : Graph.ofScan (scan text) with
  | error q =>
    rw [hgraph] at h
    cases h
    cases q with
    | invalid => trivial
    | tooDeep => exact hgraph
    | cut =>
      rw [NodeProblem.problem]
      cases hstop : (scan text).stop with
      | none => trivial
      | some p => exact (hasCause_of_scan hstop).isOf fun _ => .token
  | ok read =>
    obtain ⟨g, _ | root⟩ := read
    · rw [hgraph] at h
      cases h
    · rw [hgraph] at h
      dsimp only [Except.mapError] at h
      have hmeet := Checking.meet_checks ⟨g, [], []⟩ root
      cases hroot : Checking.meet ⟨g, [], []⟩ root with
      | error q =>
        rw [hroot] at h hmeet
        cases h
        exact Problem.HasCause.isOf hmeet fun _ => .node hgraph
      | ok c =>
        rw [hroot] at h hmeet
        cases hrun : c.run (g.size + 1) with
        | error q =>
          simp only [hrun] at h
          cases h
          exact (Checking.hasCause_of_run hrun).isOf fun _ hf =>
            .node hgraph (Graph.Follows.nodeFault hmeet hf)
        | ok checked =>
          simp only [hrun] at h
          cases h

end GraphQLDoc.Yaml
