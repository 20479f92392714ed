import GraphQLDoc.FileSystem.Basic
import GraphQLDoc.Proofs.Decoding.Document
import GraphQLDoc.Proofs.Text.Utf8
import GraphQLDoc.Proofs.Token.Newlines

/-!
Compact JSON is printable ASCII. A file of it holds one byte for each character and no line break, so
that it is read back as the text that was written.
-/
namespace GraphQLDoc

/-- Printable characters of ASCII. -/
def IsPlainText (cs : List Char) : Prop := ∀ c ∈ cs, 0x20 ≤ c.toNat ∧ c.toNat < 0x7F

instance (cs : List Char) : Decidable (IsPlainText cs) :=
  List.decidableBAll (fun c : Char => 0x20 ≤ c.toNat ∧ c.toNat < 0x7F) cs

namespace IsPlainText

variable {cs ds : List Char}

theorem nil : IsPlainText [] := nofun

theorem append (h : IsPlainText cs) (h' : IsPlainText ds) : IsPlainText (cs ++ ds) :=
  List.forall_mem_append.mpr ⟨h, h'⟩

theorem cons {c : Char} (hc : 0x20 ≤ c.toNat ∧ c.toNat < 0x7F) (h : IsPlainText cs) :
    IsPlainText (c :: cs) :=
  List.forall_mem_cons.mpr ⟨hc, h⟩

theorem of_isHexDigit (h : ∀ c ∈ cs, isHexDigit c = true) : IsPlainText cs := by
  intro c hc
  have hdigit := h c hc
  simp only [isHexDigit, isDigit, Bool.or_eq_true, Bool.and_eq_true, decide_eq_true_eq,
    Char.le_def, UInt32.le_iff_toNat_le] at hdigit
  unfold Char.toNat
  rcases hdigit with (hdigit | hdigit) | hdigit
  · change 48 ≤ c.val.toNat ∧ c.val.toNat ≤ 57 at hdigit
    omega
  · change 97 ≤ c.val.toNat ∧ c.val.toNat ≤ 102 at hdigit
    omega
  · change 65 ≤ c.val.toNat ∧ c.val.toNat ≤ 70 at hdigit
    omega

theorem of_areDigits (h : AreDigits cs) : IsPlainText cs :=
  of_isHexDigit fun c hc => by simp [isHexDigit, h c hc]

theorem isOneLine (h : IsPlainText cs) : IsOneLine cs := by
  intro c hc
  have hlow := (h c hc).1
  simp only [isLineBreak, Bool.or_eq_false_iff, beq_eq_false_iff_ne]
  constructor <;> rintro rfl <;> exact absurd hlow (by decide)

/-- A file of the text is read as the text. -/
theorem textOfFile_encode (h : IsPlainText cs) : textOfFile (Utf8.encode cs) = .ok cs := by
  rw [textOfFile, Utf8.decode_encode]
  exact congrArg Except.ok h.isOneLine.normalize

end IsPlainText

namespace Json

open IsPlainText (nil)

theorem isPlainText_number {t : NumberText} (h : t.IsNumber) : IsPlainText t.text := by
  have hsign : IsPlainText (Pattern.signText t.negative) := by
    cases t.negative <;> decide
  have hfraction : IsPlainText t.fraction := by
    by_cases hplaces : t.places = []
    · rw [NumberText.fraction, hplaces]
      decide
    · rw [NumberText.fraction, NumberText.fractionText_of_ne_nil hplaces]
      exact .cons (by decide) (.of_areDigits h.places)
  refine hsign.append ((IsPlainText.of_areDigits h.whole.digits).append (hfraction.append ?_))
  rcases h.power with hpower | ⟨e, sign, ds, hpower, he, hsign, -, hds⟩
  · rw [hpower]
    decide
  · have hmark : IsPlainText (e :: sign) := by
      simp only [List.mem_cons, List.not_mem_nil, or_false] at hsign
      rcases he with rfl | rfl <;> rcases hsign with rfl | rfl | rfl <;> decide
    rw [hpower]
    exact hmark.append (.of_areDigits hds)

theorem isPlainText_hexDigits (n : Nat) : IsPlainText (hexDigits 4 n) := by
  refine .of_isHexDigit fun c hc => ?_
  rcases List.mem_append.mp hc with hc | hc
  · rw [(List.mem_replicate.mp hc).2]
    decide
  · exact (toDigits_hex n).1 c hc

theorem isPlainText_unitEscape (n : Nat) : IsPlainText (unitEscape n) :=
  .cons (by decide) (.cons (by decide) (isPlainText_hexDigits n))

theorem isPlainText_escapePoint (n : Nat) : IsPlainText (escapePoint n) := by
  unfold escapePoint
  repeat' split
  · decide
  · decide
  · decide
  · decide
  · decide
  · decide
  · decide
  · rename_i hn
    have hvalid : n.isValidChar := .inl (by omega)
    refine List.forall_mem_singleton.mpr ?_
    have hpoint : (Char.ofNat n).toNat = n := by
      unfold Char.ofNat
      rw [dif_pos hvalid]
      rfl
    omega
  · exact isPlainText_unitEscape n
  · exact (isPlainText_unitEscape _).append (isPlainText_unitEscape _)

theorem isPlainText_stringLiteral (points : List Nat) : IsPlainText (stringLiteral points) := by
  refine .cons (by decide) (.append (fun c hc => ?_) (by decide))
  obtain ⟨n, -, hn⟩ := List.mem_flatMap.mp hc
  exact isPlainText_escapePoint n c hn

/-! The layout without blanks. -/

mutual

theorem isPlainText_write : (v : Json) → v.IsWritable → (level : Nat) →
    IsPlainText (write .compact level v)
  | .null, _, _ => by rw [write]; decide
  | .bool b, _, _ => by cases b <;> (rw [write]; decide)
  | .int n, _, _ => by
    rw [write, intText_eq]
    exact isPlainText_number (isNumber_natText n)
  | .float x, hv, _ => by
    obtain ⟨hfinite, hcanonical⟩ := hv
    obtain ⟨t, ht, htext, -⟩ := Binary64.exists_numberText hfinite hcanonical numberWords
    rw [write, htext]
    exact isPlainText_number ht.isNumber
  | .string s, _, _ => by
    rw [write]
    exact isPlainText_stringLiteral _
  | .array [], _, _ => by rw [write]; decide
  | .array (v :: vs), hv, level => by
    rw [IsWritable, AreWritable] at hv
    rw [write]
    have hvalue : IsPlainText ('[' :: write .compact (level + 1) v) :=
      .cons (by decide) (isPlainText_write v hv.1 _)
    exact ((hvalue.append (isPlainText_writeItems vs hv.2 _)).append nil).append
      (show IsPlainText [']'] by decide)
  | .object [], _, _ => by rw [write]; decide
  | .object ((k, v) :: es), hv, level => by
    rw [IsWritable, AreWritableEntries] at hv
    rw [write]
    have hkey : IsPlainText ('\x7b' :: stringLiteral k.points) :=
      .cons (by decide) (isPlainText_stringLiteral _)
    have hvalue := (hkey.append (show IsPlainText [':'] by decide)).append
      (isPlainText_write v hv.2.2.1 (level + 1))
    exact ((hvalue.append (isPlainText_writeEntries es hv.2.2.2 _)).append nil).append
      (show IsPlainText ['\x7d'] by decide)

theorem isPlainText_writeItems : (vs : List Json) → AreWritable vs → (level : Nat) →
    IsPlainText (writeItems .compact level vs)
  | [], _, _ => by rw [writeItems]; decide
  | v :: vs, hvs, level => by
    rw [AreWritable] at hvs
    rw [writeItems]
    have hvalue : IsPlainText (',' :: write .compact level v) :=
      .cons (by decide) (isPlainText_write v hvs.1 _)
    exact hvalue.append (isPlainText_writeItems vs hvs.2 _)

theorem isPlainText_writeEntries : (es : List (JsonString × Json)) → AreWritableEntries es →
    (level : Nat) → IsPlainText (writeEntries .compact level es)
  | [], _, _ => by rw [writeEntries]; decide
  | (k, v) :: es, hes, level => by
    rw [AreWritableEntries] at hes
    rw [writeEntries]
    have hkey : IsPlainText (',' :: stringLiteral k.points) :=
      .cons (by decide) (isPlainText_stringLiteral _)
    have hvalue := (hkey.append (show IsPlainText [':'] by decide)).append
      (isPlainText_write v hes.2.1 level)
    exact hvalue.append (isPlainText_writeEntries es hes.2.2 _)

end

end Json

namespace Artifact

/-- The bytes of an artifact with the data of a document. -/
def bytesOf (d : Document) : List UInt8 := Utf8.encode (textOf d).toList

/-- The artifact of a document that meets the rules is read back from its file. -/
theorem read_bytesOf [Machine] {d : Document} (h : d.isValid = true) (ht : AreTexts d.leaves)
    (hn : d.nesting ≤ maxNesting) (hcalls : maxDepth ≤ Machine.calls) :
    textOfFile (bytesOf d) = .ok (textOf d).toList ∧ deserialize (textOf d).toList = .ok d := by
  have hplain : IsPlainText (textOf d).toList := by
    rw [textOf, Json.render, String.toList_ofList]
    exact Json.isPlainText_write _ (isWritable_encode h ht) 0
  exact ⟨hplain.textOfFile_encode, deserialize_textOf h ht hn hcalls⟩

end Artifact

end GraphQLDoc
