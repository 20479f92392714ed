import GraphQLDoc.Proofs.Decoding.Validity
import GraphQLDoc.Proofs.Leaves.Document
import GraphQLDoc.Proofs.Parse.Outcome
import GraphQLDoc.Proofs.Workspace.Run

/-!
The documents that are handed out. A document comes from a text that was parsed or from data that was
decoded, and a compilation takes each of its documents from one of the two. Either way it meets the
rules of documents. A string that was parsed is a text; one that was decoded is what the data hold, and
they may hold half of a surrogate pair.
-/
namespace GraphQLDoc

/-- The code points of a string. -/
def Leaf.points : Leaf → List Nat
  | string s => s.points
  | _ => []

/-- A document that meets the rules, with no half of a surrogate pair in its strings. -/
structure Document.IsWellFormed (d : Document) : Prop where
  valid : d.isValid = true
  paired : ∀ l ∈ d.leaves, ∀ n ∈ l.points, isHighSurrogate n = false ∧ isLowSurrogate n = false

instance (d : Document) : Decidable d.IsWellFormed :=
  decidable_of_iff (d.isValid = true ∧ ∀ l ∈ d.leaves, ∀ n ∈ l.points,
      isHighSurrogate n = false ∧ isLowSurrogate n = false)
    ⟨fun ⟨hvalid, hpaired⟩ => ⟨hvalid, hpaired⟩, fun h => ⟨h.valid, h.paired⟩⟩

/-- No character of a text is half of a pair. -/
theorem Leaf.points_of_isText {l : Leaf} (h : l.isText = true) {n : Nat} (hn : n ∈ l.points) :
    isHighSurrogate n = false ∧ isLowSurrogate n = false := by
  cases l with
  | string s =>
    obtain ⟨text, rfl⟩ := JsonString.isText_iff.mp h
    obtain ⟨c, -, rfl⟩ := List.mem_map.mp hn
    have hc : c.toNat < 0xD800 ∨ 0xDFFF < c.toNat := c.valid.imp id And.left
    simp only [isHighSurrogate, isLowSurrogate]
    constructor <;> simp <;> omega
  | _ => cases hn

/-- A document whose strings are texts, which its artifact gives back. -/
structure Document.IsPlain (d : Document) : Prop where
  valid : d.isValid = true
  texts : AreTexts d.leaves

theorem Document.IsPlain.isWellFormed {d : Document} (h : d.IsPlain) : d.IsWellFormed where
  valid := h.valid
  paired l hl _ hn := Leaf.points_of_isText (h.texts l hl) hn

theorem Allows.all : Allows .full fun _ => True :=
  ⟨fun _ _ => trivial, fun _ _ _ _ => trivial, trivial⟩

variable [Machine]

theorem isPlain_of_parseDocument {text : List Char} {d : Document}
    (h : parseDocument text = .ok d) : d.IsPlain := by
  obtain ⟨t, -, hconvert, w, htree⟩ := exists_tree_of_parseWith h
  refine ⟨(Conversion.gives_document Allows.all htree).of_eq_ok hconvert, ?_⟩
  rw [← (Conversion.sorted_document_of_isTreeOf htree).of_eq_ok hconvert]
  exact ParseTree.areTexts_leaves _

theorem isPlain_of_parseFile {fs : FileSystem} {p : Path} {d : Document}
    (h : parseFile fs p = .ok d) : d.IsPlain := by
  unfold parseFile at h
  split at h
  case h_4 text _ =>
    cases hparse : parseDocument text with
    | error e =>
      rw [hparse] at h
      exact nomatch h
    | ok d' =>
      rw [hparse] at h
      exact Except.ok.inj h ▸ isPlain_of_parseDocument hparse
  all_goals exact nomatch h

namespace Artifact

omit [Machine] in
theorem isValid_of_decode {v : Json} (hv : v.HasCanonicalFloats) {d : Document}
    (h : decode v = .ok d) : d.isValid = true := by
  cases hv with
  | @object es hes =>
    simp only [decode] at h
    split at h
    · split at h
      · cases h
      · split at h
        · cases h
        · rename_i data hdata
          have hdocument := Decoder.validates_document data (Decoder.AreCanonical.get? hes hdata)
          split at h
          · rename_i d' hd'
            exact Except.ok.inj h ▸ hdocument.of_eq_ok hd'
          · cases h
    · cases h
  | _ => cases h

theorem isValid_of_deserialize {text : List Char} {d : Document}
    (h : deserialize text = .ok d) : d.isValid = true := by
  unfold deserialize at h
  split at h
  · exact nomatch h
  · rename_i v hv
    exact isValid_of_decode (Json.read_canonical hv) h

theorem deserialize_of_load {fs : FileSystem} {p : Path} {d : Document} (h : load fs p = .ok d) :
    ∃ text, deserialize text = .ok d := by
  unfold load at h
  split at h
  · exact nomatch h
  · rename_i text _
    cases htext : deserialize text with
    | error e =>
      rw [htext] at h
      exact nomatch h
    | ok d' =>
      rw [htext] at h
      exact ⟨text, htext.trans (congrArg Except.ok (Except.ok.inj h))⟩

end Artifact

namespace Compile

variable {build root : Path} {sources : List Path} {done docs : List (String × Document)}
  {fs : FileSystem}

/-- Each source adds at most one document, and what holds of it holds of all of them. -/
theorem filesInto_forall {P : Document → Prop}
    (hP : ∀ fs source artifact d, HasDocument fs source artifact d → P d)
    (h : (filesInto build root sources done fs).1 = .ok docs) (hdone : ∀ e ∈ done, P e.2) :
    ∀ e ∈ docs, P e.2 := by
  induction sources generalizing done fs with
  | nil => exact Except.ok.inj h ▸ hdone
  | cons source rest ih =>
    obtain ⟨k, done', gs, -, -, hstep, hadded⟩ := filesInto_cons h
    rw [hstep] at h
    refine ih h ?_
    rcases hadded with ⟨d, -, rfl⟩ | ⟨d, -, rfl, hd⟩
    · exact hdone
    · exact List.forall_mem_append.mpr ⟨hdone, List.forall_mem_singleton.mpr (hP _ _ _ _ hd)⟩

end Compile

/-- Every document that is parsed is well-formed. One that is read from an artifact meets the rules, and
one that is compiled is of one of the two kinds. -/
theorem documents_isWellFormed :
    (∀ text d, parseDocument text = .ok d → d.IsWellFormed) ∧
    (∀ text d, Artifact.deserialize text = .ok d → d.isValid = true) ∧
    ∀ sources build root fs docs, (Compile.files sources build root fs).1 = .ok docs →
      ∀ key d, (key, d) ∈ docs → d.isValid = true ∧
        (d.IsWellFormed ∨ ∃ text, Artifact.deserialize text = .ok d) := by
  refine ⟨fun _ _ h => (isPlain_of_parseDocument h).isWellFormed,
    fun _ _ => Artifact.isValid_of_deserialize, fun sources build root fs docs h key d hd => ?_⟩
  refine Compile.filesInto_forall (P := fun d => d.isValid = true ∧
    (d.IsWellFormed ∨ ∃ text, Artifact.deserialize text = .ok d)) ?_ h nofun (key, d) hd
  rintro fs source artifact d (⟨-, hload⟩ | ⟨-, hparse⟩)
  · obtain ⟨text, htext⟩ := Artifact.deserialize_of_load hload
    exact ⟨Artifact.isValid_of_deserialize htext, .inr ⟨text, htext⟩⟩
  · have hplain := isPlain_of_parseFile hparse
    exact ⟨hplain.valid, .inl hplain.isWellFormed⟩

omit [Machine] in
theorem eq_ok_of_toOption {ε α : Type} {r : Except ε α} {a : α} (h : r.toOption = some a) :
    r = .ok a := by
  cases r with
  | error => exact nomatch h
  | ok => exact congrArg Except.ok (Option.some.inj h)

omit [Machine] in
theorem exists_error_of_toOption {ε α : Type} {r : Except ε α} (h : r.toOption = none) :
    ∃ e, r = .error e := by
  cases r with
  | error e => exact ⟨e, rfl⟩
  | ok => exact nomatch h

omit [Machine] in
/-- A text, the data of a document and a compilation that takes its document from an artifact. -/
theorem exampleFiles_isWellFormed :
    (∃ d, @parseDocument .usual exampleText = .ok d ∧ d.IsWellFormed) ∧
    (∃ d, @Artifact.deserialize .usual (Artifact.textOf ⟨[]⟩).toList = .ok d ∧ d.isValid = true) ∧
    ∃ docs d, (@Compile.files .usual [.ofString "a.graphql"] (.ofString "build") .here
      Compile.exampleFiles).1 = .ok docs ∧ ("a", d) ∈ docs ∧ d.isValid = true := by
  obtain ⟨hparse, hdecode, hcompile⟩ := @documents_isWellFormed .usual
  have hread : (@Artifact.deserialize .usual (Artifact.textOf ⟨[]⟩).toList).toOption.isSome = true := by
    decide +kernel
  obtain ⟨d, hd⟩ := Option.isSome_iff_exists.mp hread
  have hd := eq_ok_of_toOption hd
  have hkeys : ((@Compile.files .usual [.ofString "a.graphql"] (.ofString "build") .here
      Compile.exampleFiles).1.toOption.map fun docs => docs.map Prod.fst) = some ["a"] := by
    decide +kernel
  obtain ⟨docs, hdocs, hkey⟩ := Option.map_eq_some_iff.mp hkeys
  have hdocs := eq_ok_of_toOption hdocs
  obtain ⟨⟨_, d'⟩, rfl, rfl⟩ := List.map_eq_singleton_iff.mp hkey
  have hparsed := @parseDocument_exampleText .usual
  exact ⟨⟨_, hparsed, hparse _ _ hparsed⟩, ⟨d, hd, hdecode _ _ hd⟩,
    _, d', hdocs, List.mem_cons_self, (hcompile _ _ _ _ _ hdocs _ _ List.mem_cons_self).1⟩

/-- An artifact of a scalar whose description is half of a pair. -/
def surrogateText : List Char :=
  ("\x7b\"v\":\"1\",\"document\":\x7b\"definitions\":[\x7b\"kind\":\"scalar\"," ++
    "\"description\":\"\\ud800\",\"name\":\"A\"\x7d]\x7d\x7d").toList

omit [Machine] in
/-- Data may hold what no text denotes, and the document that they hold is handed out. -/
theorem deserialize_surrogateText : ∃ d, @Artifact.deserialize .usual surrogateText = .ok d ∧
    d.isValid = true ∧ ¬ d.IsWellFormed := by
  have hread : ((@Artifact.deserialize .usual surrogateText).toOption.map fun d =>
      (d.isValid, decide d.IsWellFormed)) = some (true, false) := by
    decide +kernel
  obtain ⟨d, hd, hanswers⟩ := Option.map_eq_some_iff.mp hread
  obtain ⟨hvalid, hformed⟩ := Prod.mk.inj hanswers
  exact ⟨d, eq_ok_of_toOption hd, hvalid, of_decide_eq_false hformed⟩

end GraphQLDoc
