import GraphQLDoc.Proofs.Agreement.Document
import GraphQLDoc.Proofs.Token.Newlines
import GraphQLDoc.Workspace.Source

/-!
Line breaks are interchangeable: a text means the same however they are written, and where it has no
meaning the same is wrong with it. So it does not matter to a document that files are read with line
feeds for all their line breaks.
-/
namespace GraphQLDoc

namespace Input

/-- Inputs that differ in how their line breaks are written. -/
def SameLines (i j : Input) : Prop := normalizeNewlines i.text = normalizeNewlines j.text

variable {i j rest : Input} {wanted : List Terminal} {a : Token}

theorem normalizeNewlines_eq_nil {cs : List Char} : normalizeNewlines cs = [] ↔ cs = [] := by
  fun_cases normalizeNewlines cs <;> simp

theorem SameLines.skipIgnored (h : SameLines i j) : SameLines i.skipIgnored j.skipIgnored := by
  show normalizeNewlines (i.text.drop _) = normalizeNewlines (j.text.drop _)
  rw [← drop_ignored_normalize, ← drop_ignored_normalize, h]

theorem SameLines.ends (h : SameLines i j) (hi : i.skipIgnored.text = []) :
    j.skipIgnored.text = [] :=
  normalizeNewlines_eq_nil.mp (h.skipIgnored.symm.trans (normalizeNewlines_eq_nil.mpr hi))

/-- The text of a token in an input, and what it is with line feeds. -/
theorem token?_normalize (h : i.token? wanted = some (a, rest)) :
    ∃ m', Match.first? wanted (normalizeNewlines i.text) = some m' ∧
      m' = ⟨a.terminal, (normalizeNewlines a.text).length⟩ ∧
      normalizeNewlines i.text = normalizeNewlines a.text ++ normalizeNewlines rest.text ∧
      (normalizeNewlines a.text = a.text ∨ a.terminal = .blockString ∧
        Block.decode (normalizeNewlines a.text) = Block.decode a.text) := by
  have hcorresponds := Match.first?_corresponds wanted i.text
  have hfirst := first?_of_token? h
  have hsplit := (token?_spec h).1
  rw [hfirst] at hcorresponds
  generalize Match.first? wanted (normalizeNewlines i.text) = m' at hcorresponds
  generalize hlength : a.text.length = n at hcorresponds
  cases hcorresponds with
  | some t text normalized value =>
    obtain ⟨rfl, rfl⟩ := List.append_inj (text.symm.trans hsplit) hlength.symm
    exact ⟨_, rfl, rfl, normalized, value⟩

theorem SameLines.reads (h : SameLines i j)
    (ha : i.skipIgnored.token? wanted = some (a, rest)) :
    ∃ b rest', j.skipIgnored.token? wanted = some (b, rest') ∧ a.Alike b ∧ SameLines rest rest' := by
  obtain ⟨m, hm, rfl, hsplit, hvalue⟩ := token?_normalize ha
  rw [h.skipIgnored] at hm hsplit
  obtain ⟨⟨b, rest'⟩, hb⟩ : ∃ found, j.skipIgnored.token? wanted = some found := by
    have hsome := (Match.first?_corresponds wanted j.skipIgnored.text).isSome_eq
    rw [hm] at hsome
    refine Option.isSome_iff_exists.mp ?_
    rw [token?, Option.isSome_map, hsome]
    rfl
  obtain ⟨m', hm', rfl, hsplit', hvalue'⟩ := token?_normalize hb
  obtain ⟨hterminal, hlength⟩ := Match.mk.inj (Option.some.inj (hm.symm.trans hm'))
  obtain ⟨htext, hrest⟩ := List.append_inj (hsplit.symm.trans hsplit') hlength
  refine ⟨b, rest', hb, ⟨hterminal, ?_⟩, hrest⟩
  by_cases hblock : a.terminal = .blockString
  · refine .inr ⟨hblock, ?_⟩
    have hdecode {t : Token} (h : normalizeNewlines t.text = t.text ∨ t.terminal = .blockString ∧
        Block.decode (normalizeNewlines t.text) = Block.decode t.text) :
        Block.decode (normalizeNewlines t.text) = Block.decode t.text :=
      h.elim (congrArg _) And.right
    rw [← hdecode hvalue, ← hdecode hvalue', htext]
  · have hplain := hvalue.resolve_right fun h => hblock h.1
    have hplain' := hvalue'.resolve_right fun h => hblock (hterminal.trans h.1)
    exact .inl (hplain.symm.trans (htext.trans hplain'))

end Input

variable {start : Start} {text text' : List Char}

theorem exists_derive_of_sameLines (h : normalizeNewlines text = normalizeNewlines text')
    {d : Derivation} (hd : derive start text = .ok d) :
    ∃ e, derive start text' = .ok e ∧ d.Alike e :=
  derive_follow (R := fun i j _ => i.SameLines j) (fun h => h.ends) (fun h => h.reads) hd h

theorem parseWith_sameLines {α : Type} {convert : ParseTree → Converted α}
    (hconvert : SameOnAlike convert) (h : normalizeNewlines text = normalizeNewlines text') :
    SameOutcome (parseWith start convert text) (parseWith start convert text') := by
  have hmalformed {text : List Char} {e : SyntaxError} (h : derive start text = .error e) :
      parseWith start convert text = .error (.malformed e) := by
    rw [parseWith, parseTree, h]
    rfl
  cases hd : derive start text with
  | ok d =>
    obtain ⟨e, he, hde⟩ := exists_derive_of_sameLines h hd
    exact sameOutcome_of_alike hconvert hd he hde
  | error e =>
    cases he : derive start text' with
    | ok d =>
      obtain ⟨_, hd', -⟩ := exists_derive_of_sameLines h.symm he
      cases hd.symm.trans hd'
    | error f =>
      rw [hmalformed hd, hmalformed he]
      trivial

/-- A text is the same document whether its line breaks are line feeds, carriage returns or both, and
where it is none it is refused for the same reason. -/
theorem parseDocument_normalizeNewlines [Machine] (text : List Char) :
    SameOutcome (parseDocument text) (parseDocument (normalizeNewlines text)) :=
  parseWith_sameLines Conversion.same_document (normalizeNewlines_idem text).symm

/-- A file holds the document that its text is, with the line breaks as they are in the file. -/
theorem parseFile_eq_ok [Machine] {fs : FileSystem} {p : Path} {bytes : List UInt8}
    {text : List Char} {d : Document} (hread : fs.read p = .ok bytes) (htext : Utf8.decode bytes = .ok text) :
    parseFile fs p = .ok d ↔ parseDocument text = .ok d := by
  have hsame : SameOutcome (parseDocument text) (parseDocument (normalizeNewlines text)) :=
    parseWith_sameLines Conversion.same_document (normalizeNewlines_idem text).symm
  have hfile : parseFile fs p = (parseDocument (normalizeNewlines text)).mapError .content := by
    simp only [parseFile, FileSystem.readText, hread, textOfFile, htext]
    rfl
  rw [hfile, hsame.eq_ok_iff]
  cases parseDocument (normalizeNewlines text) with
  | ok d' => exact ⟨fun h => congrArg _ (Except.ok.inj h), fun h => congrArg _ (Except.ok.inj h)⟩
  | error e => simp [Except.mapError]

end GraphQLDoc
