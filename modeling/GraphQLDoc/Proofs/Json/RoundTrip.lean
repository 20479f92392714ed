import GraphQLDoc.Proofs.Json.Numbers

/-!
JSON is read back in every layout that puts only blanks around its commas and colons. A value in front
of a text that ends it is read up to there, and the length of the text is fuel enough.
-/
namespace GraphQLDoc.Json

variable {strict : Bool} {i : Input} {rest : List Char}

/-- Characters that may stand between the parts of a text. -/
def AreBlanks (cs : List Char) : Prop := ∀ c ∈ cs, isBlank c = true

namespace Layout

/-- The separators are a comma and a colon, and blanks behind them. -/
structure IsReadable (l : Layout) : Prop where
  item : ∃ blanks, l.itemSeparator = ',' :: blanks ∧ AreBlanks blanks
  key : ∃ blanks, l.keySeparator = ':' :: blanks ∧ AreBlanks blanks

theorem isReadable_compact : compact.IsReadable :=
  ⟨⟨[], rfl, by simp [AreBlanks]⟩, ⟨[], rfl, by simp [AreBlanks]⟩⟩

theorem isReadable_spaced : spaced.IsReadable :=
  ⟨⟨[' '], rfl, by simp [AreBlanks, isBlank]⟩, ⟨[' '], rfl, by simp [AreBlanks, isBlank]⟩⟩

theorem isReadable_indented (width : Int) : (indented width).IsReadable :=
  ⟨⟨[], rfl, by simp [AreBlanks]⟩, ⟨[' '], rfl, by simp [AreBlanks, isBlank]⟩⟩

theorem areBlanks_newLine (l : Layout) (level : Nat) : AreBlanks (l.newLine level) := by
  intro c hc
  unfold newLine at hc
  split at hc
  · cases hc
  · obtain rfl | hc := List.mem_cons.mp hc
    · rfl
    · rw [(List.mem_replicate.mp hc).2]
      rfl

end Layout

mutual

/-- The values that are read back as they are: no string with a lone surrogate, no integer with too
many digits, only numbers in their own form, and no key twice. -/
def IsWritable : Json → Prop
  | null | bool _ => True
  | int n => (natText n.natAbs).length ≤ maxIntegerDigits
  | float x => x.isFinite = true ∧ x.IsCanonical
  | string s => ∃ text, s = .text text
  | array items => AreWritable items
  | object entries => (entries.map (·.1)).Nodup ∧ AreWritableEntries entries

def AreWritable : List Json → Prop
  | [] => True
  | v :: vs => v.IsWritable ∧ AreWritable vs

def AreWritableEntries : List (JsonString × Json) → Prop
  | [] => True
  | (k, v) :: es => (∃ text, k = .text text) ∧ v.IsWritable ∧ AreWritableEntries es

end

/-- The text that follows a value in JSON, or none. -/
def EndsValue (rest : List Char) : Prop :=
  ∀ c ∈ rest.head?, isBlank c = true ∨ c ∈ [',', ']', '\x7d']

namespace EndsValue

theorem endsNumber (h : EndsValue rest) : Pattern.endsNumber rest = true := by
  cases rest with
  | nil => rfl
  | cons c rest =>
    have hc := h c rfl
    simp only [isBlank, Bool.or_eq_true, beq_iff_eq, List.mem_cons, List.not_mem_nil, or_false] at hc
    rcases hc with (((rfl | rfl) | rfl) | rfl) | rfl | rfl | rfl <;> rfl

theorem cons {c : Char} (h : c ∈ [',', ']', '\x7d']) (rest : List Char) : EndsValue (c :: rest) := by
  intro d hd
  obtain rfl := Option.some.inj hd
  exact .inr h

theorem blanks_append {blanks : List Char} (hblanks : AreBlanks blanks) (h : EndsValue rest) :
    EndsValue (blanks ++ rest) := by
  cases blanks with
  | nil => exact h
  | cons b blanks =>
    intro c hc
    obtain rfl := Option.some.inj hc
    exact .inl (hblanks b List.mem_cons_self)

end EndsValue

/-- Blanks are passed over up to what follows them. -/
theorem skipBlanks_append {blanks : List Char} (htext : i.text = blanks ++ rest)
    (hblanks : AreBlanks blanks) (hhead : ∀ c ∈ rest.head?, isBlank c = false) :
    (skipBlanks i).text = rest := by
  have hrest : rest.takeWhile isBlank = [] := by
    cases rest with
    | nil => rfl
    | cons c rest => exact List.takeWhile_cons_of_neg (by simp [hhead c rfl])
  rw [skipBlanks, Input.drop_text, htext, List.takeWhile_append_of_pos hblanks, hrest,
    List.append_nil, List.drop_left]

theorem skipBlanks_of_head (h : ∀ c ∈ i.text.head?, isBlank c = false) :
    (skipBlanks i).text = i.text :=
  skipBlanks_append (List.nil_append i.text).symm (by simp [AreBlanks]) h

/-- A value that is none of a string, an array and an object. -/
theorem readValue_scalar {levels fuel : Nat} (h : ∀ c ∈ i.text.head?, c ∉ ['"', '[', '\x7b']) :
    readValue strict levels (fuel + 1) i = readScalar i := by
  rw [readValue]
  split
  · rename_i htext
    exact absurd (h '"' (by rw [htext]; rfl)) (by decide)
  · rename_i htext
    exact absurd (h '[' (by rw [htext]; rfl)) (by decide)
  · rename_i htext
    exact absurd (h '\x7b' (by rw [htext]; rfl)) (by decide)
  · rfl

theorem readValue_number {t : NumberText} {levels fuel : Nat} (ht : t.IsNumber)
    (htext : i.text = t.text ++ rest) : readValue strict levels (fuel + 1) i = readNumber i := by
  rw [readValue_scalar, readScalar_number ht htext]
  obtain ⟨c, tail, hhead, hc⟩ := ht.head
  rw [htext, hhead]
  intro d hd
  obtain rfl := Option.some.inj hd
  rcases hc with hc | ⟨rfl, -⟩
  · intro hmem
    simp only [List.mem_cons, List.not_mem_nil, or_false] at hmem
    rcases hmem with rfl | rfl | rfl <;> exact absurd hc (by decide)
  · decide

/-- The first character of a value is no blank, no byte order mark and no closing bracket. -/
theorem write_head {v : Json} (h : v.IsWritable) (l : Layout) (level : Nat) :
    ∃ c tail, write l level v = c :: tail ∧ isBlank c = false ∧ c ∉ ['\uFEFF', ']'] := by
  have hnumber {t : NumberText} (ht : t.IsNumber) :
      ∃ c tail, t.text = c :: tail ∧ isBlank c = false ∧ c ∉ ['\uFEFF', ']'] := by
    obtain ⟨c, tail, hhead, hc⟩ := ht.head
    refine ⟨c, tail, hhead, ?_⟩
    rcases hc with hc | ⟨rfl, -⟩
    · refine ⟨Bool.eq_false_iff.mpr fun hblank => ?_, fun hmem => ?_⟩
      · simp only [isBlank, Bool.or_eq_true, beq_iff_eq] at hblank
        rcases hblank with ((rfl | rfl) | rfl) | rfl <;> exact absurd hc (by decide)
      · simp only [List.mem_cons, List.not_mem_nil, or_false] at hmem
        rcases hmem with rfl | rfl <;> exact absurd hc (by decide)
    · decide
  cases v with
  | null => exact ⟨'n', _, rfl, by decide, by decide⟩
  | bool b => cases b <;> exact ⟨_, _, rfl, by decide, by decide⟩
  | int n =>
    have htext : write l level (.int n) =
        (NumberText.mk (decide (n < 0)) (natText n.natAbs) [] []).text := by
      rw [write, intText_eq]
    rw [htext]
    exact hnumber (isNumber_natText n)
  | float x =>
    rw [IsWritable] at h
    obtain ⟨number, hfloat, htext, -⟩ := Binary64.exists_numberText h.1 h.2 numberWords
    rw [write, htext]
    exact hnumber hfloat.isNumber
  | string s => exact ⟨'"', _, rfl, by decide, by decide⟩
  | array items => cases items <;> exact ⟨'[', _, rfl, by decide, by decide⟩
  | object entries => cases entries <;> exact ⟨'\x7b', _, rfl, by decide, by decide⟩

theorem put_of_notMem {α β : Type} [DecidableEq α] {key : α} {value : β} {es : List (α × β)}
    (h : key ∉ es.map (·.1)) : Entries.put key value es = es ++ [(key, value)] := by
  induction es with
  | nil => rfl
  | cons e es ih =>
    obtain ⟨hne, hes⟩ := not_or.mp (mt List.mem_cons.mpr h)
    rw [Entries.put, if_neg (Ne.symm hne), ih hes, List.cons_append]

/-- A key that comes up once is none of those before it. -/
theorem notMem_of_nodup {α β : Type} {e : α × β} {before es : List (α × β)}
    (h : ((before ++ e :: es).map (·.1)).Nodup) : e.1 ∉ before.map (·.1) := by
  rw [List.map_append, List.nodup_append] at h
  exact fun hmem => h.2.2 e.1 hmem e.1 List.mem_cons_self rfl

theorem readScalar_null (htext : i.text = "null".toList ++ rest) :
    readScalar i = .ok (null, i.drop 4) := by
  unfold readScalar
  rw [htext]
  rfl

theorem readScalar_bool {b : Bool}
    (htext : i.text = (if b then "true" else "false").toList ++ rest) :
    readScalar i = .ok (bool b, i.drop (if b then "true" else "false").toList.length) := by
  unfold readScalar
  rw [htext]
  cases b <;> rfl

section

variable {l : Layout}

/-- The items of an array with commas between them. -/
def itemsText (l : Layout) (level : Nat) : List Json → List Char
  | [] => []
  | v :: vs => write l level v ++ writeItems l level vs

def entriesText (l : Layout) (level : Nat) : List (JsonString × Json) → List Char
  | [] => []
  | (k, v) :: es =>
    stringLiteral k.points ++ l.keySeparator ++ write l level v ++ writeEntries l level es

theorem write_array (level : Nat) (v : Json) (vs : List Json) :
    write l level (.array (v :: vs)) = '[' :: (l.newLine (level + 1) ++
      (itemsText l (level + 1) (v :: vs) ++ (l.newLine level ++ [']']))) := by
  simp [write, itemsText]

theorem write_object (level : Nat) (e : JsonString × Json) (es : List (JsonString × Json)) :
    write l level (.object (e :: es)) = '\x7b' :: (l.newLine (level + 1) ++
      (entriesText l (level + 1) (e :: es) ++ (l.newLine level ++ ['\x7d']))) := by
  simp [write, entriesText]

theorem entriesText_head (level : Nat) (e : JsonString × Json) (es : List (JsonString × Json))
    (rest : List Char) : ∃ tail, entriesText l level (e :: es) ++ rest = '"' :: tail := ⟨_, rfl⟩

variable (hl : l.IsReadable)

include hl

theorem itemsText_cons_cons (level : Nat) (v w : Json) (vs : List Json) :
    ∃ blanks, AreBlanks blanks ∧ itemsText l level (v :: w :: vs) =
      write l level v ++ (',' :: (blanks ++ itemsText l level (w :: vs))) := by
  obtain ⟨blanks, hseparator, hblanks⟩ := hl.item
  refine ⟨blanks ++ l.newLine level, ?_, by simp [itemsText, writeItems, hseparator]⟩
  exact List.forall_mem_append.mpr ⟨hblanks, l.areBlanks_newLine level⟩

/-- An entry that is the last. -/
theorem entriesText_singleton (level : Nat) (e : JsonString × Json) :
    ∃ blanks, AreBlanks blanks ∧ entriesText l level [e] =
      stringLiteral e.1.points ++ (':' :: (blanks ++ write l level e.2)) := by
  obtain ⟨blanks, hseparator, hblanks⟩ := hl.key
  exact ⟨blanks, hblanks, by simp [entriesText, writeEntries, hseparator]⟩

theorem entriesText_cons_cons (level : Nat) (e f : JsonString × Json)
    (es : List (JsonString × Json)) :
    ∃ blanks between, AreBlanks blanks ∧ AreBlanks between ∧ entriesText l level (e :: f :: es) =
      stringLiteral e.1.points ++ (':' :: (blanks ++ (write l level e.2 ++
        (',' :: (between ++ entriesText l level (f :: es)))))) := by
  obtain ⟨blanks, hkey, hblanks⟩ := hl.key
  obtain ⟨between, hitem, hbetween⟩ := hl.item
  refine ⟨blanks, between ++ l.newLine level, hblanks, ?_, ?_⟩
  · exact List.forall_mem_append.mpr ⟨hbetween, l.areBlanks_newLine level⟩
  · simp [entriesText, writeEntries, hkey, hitem]

end

/-! One step of the reader at each bracket, comma and colon. -/

section

variable {levels fuel : Nat} {c : Char} {inner blanks : List Char}

theorem drop_one_text (htext : i.text = c :: inner) : (i.drop 1).text = inner := by
  rw [Input.drop_text, htext]
  rfl

theorem skipBlanks_cons (htext : i.text = c :: inner) (hc : isBlank c = false) :
    (skipBlanks i).text = c :: inner := by
  rw [skipBlanks_of_head, htext]
  rw [htext]
  intro d hd
  obtain rfl := Option.some.inj hd
  exact hc

theorem readValue_emptyArray (htext : i.text = '[' :: ']' :: rest) :
    ∃ j, readValue strict (levels + 1) (fuel + 1) i = .ok (.array [], j) ∧ j.text = rest := by
  have hinside := skipBlanks_cons (drop_one_text htext) (by decide)
  refine ⟨_, ?_, drop_one_text hinside⟩
  simp only [readValue, htext, Nat.add_eq_zero_iff, one_ne_zero, and_false, if_false,
    Nat.add_sub_cancel, hinside]

theorem readValue_emptyObject (htext : i.text = '\x7b' :: '\x7d' :: rest) :
    ∃ j, readValue strict (levels + 1) (fuel + 1) i = .ok (.object [], j) ∧ j.text = rest := by
  have hinside := skipBlanks_cons (drop_one_text htext) (by decide)
  refine ⟨_, ?_, drop_one_text hinside⟩
  simp only [readValue, htext, Nat.add_eq_zero_iff, one_ne_zero, and_false, if_false,
    Nat.add_sub_cancel, hinside]

section

variable (hblanks : AreBlanks blanks)

include hblanks

/-- Behind a character that was expected. -/
theorem skipBlanks_drop_one (htext : i.text = c :: (blanks ++ inner))
    (hhead : ∀ d ∈ inner.head?, isBlank d = false) : (skipBlanks (i.drop 1)).text = inner :=
  skipBlanks_append (drop_one_text htext) hblanks hhead

theorem readValue_array (htext : i.text = '[' :: (blanks ++ inner))
    (hhead : ∀ c ∈ inner.head?, isBlank c = false ∧ c ≠ ']') :
    ∃ j, readValue strict (levels + 1) (fuel + 1) i =
      (readItems strict levels fuel j).map (fun (vs, rest) => (.array vs, rest)) ∧ j.text = inner := by
  have hinside := skipBlanks_drop_one hblanks htext fun c hc => (hhead c hc).1
  refine ⟨_, ?_, hinside⟩
  simp only [readValue, htext, Nat.add_eq_zero_iff, one_ne_zero, and_false, if_false,
    Nat.add_sub_cancel, hinside]
  split
  · exact absurd rfl (hhead ']' rfl).2
  · cases readItems strict levels fuel (skipBlanks (i.drop 1)) <;> rfl

theorem readValue_object (htext : i.text = '\x7b' :: (blanks ++ '"' :: inner)) :
    ∃ j, readValue strict (levels + 1) (fuel + 1) i =
      (readEntries strict levels fuel [] j).map (fun (es, rest) => (.object es, rest)) ∧
        j.text = '"' :: inner := by
  have hinside := skipBlanks_drop_one hblanks htext (by simp [isBlank])
  refine ⟨_, ?_, hinside⟩
  simp only [readValue, htext, Nat.add_eq_zero_iff, one_ne_zero, and_false, if_false,
    Nat.add_sub_cancel, hinside]
  cases readEntries strict levels fuel [] (skipBlanks (i.drop 1)) <;> rfl

theorem readItems_last {v : Json} {j : Input} (hv : readValue strict levels fuel i = .ok (v, j))
    (htext : j.text = blanks ++ ']' :: rest) :
    ∃ k, readItems strict levels (fuel + 1) i = .ok ([v], k) ∧ k.text = rest := by
  have hnext := skipBlanks_append htext hblanks (by simp [isBlank])
  refine ⟨_, ?_, drop_one_text hnext⟩
  rw [readItems, hv]
  simp only [bind, Except.bind, hnext]
  rfl

theorem readItems_next {v : Json} {j : Input} (hv : readValue strict levels fuel i = .ok (v, j))
    (htext : j.text = ',' :: (blanks ++ inner)) (hhead : ∀ c ∈ inner.head?, isBlank c = false) :
    ∃ k, readItems strict levels (fuel + 1) i =
      (readItems strict levels fuel k).map (fun (vs, rest) => (v :: vs, rest)) ∧ k.text = inner := by
  have hnext := skipBlanks_cons htext (by decide)
  refine ⟨_, ?_, skipBlanks_drop_one hblanks hnext hhead⟩
  rw [readItems, hv]
  simp only [bind, Except.bind, hnext]
  cases readItems strict levels fuel (skipBlanks ((skipBlanks j).drop 1)) <;> rfl

variable {key : String} {v : Json} {after between : List Char}

/-- A key, a colon and a value. -/
theorem readEntry
    (htext : i.text = stringLiteral (JsonString.text key).points ++ ':' :: (blanks ++ inner))
    (hhead : ∀ c ∈ inner.head?, isBlank c = false)
    (hv : ∀ {j : Input}, j.text = inner →
      ∃ k, readValue strict levels fuel j = .ok (v, k) ∧ k.text = after) :
    ∃ tail j k, i.text = '"' :: tail ∧ readString strict i = .ok (.text key, j) ∧
      (skipBlanks j).text = ':' :: (blanks ++ inner) ∧
      readValue strict levels fuel (skipBlanks ((skipBlanks j).drop 1)) = .ok (v, k) ∧
      k.text = after := by
  obtain ⟨j, hj, hcolon⟩ := @readString_stringLiteral strict _ key i htext
  have hcolon := skipBlanks_cons hcolon (by decide)
  obtain ⟨k, hk, hafter⟩ := hv (skipBlanks_drop_one hblanks hcolon hhead)
  exact ⟨_, j, k, htext, hj, hcolon, hk, hafter⟩

theorem readEntries_last (es : List (JsonString × Json)) (hbetween : AreBlanks between)
    (htext : i.text = stringLiteral (JsonString.text key).points ++ ':' :: (blanks ++ inner))
    (hhead : ∀ c ∈ inner.head?, isBlank c = false)
    (hv : ∀ {j : Input}, j.text = inner →
      ∃ k, readValue strict levels fuel j = .ok (v, k) ∧ k.text = between ++ '\x7d' :: rest) :
    ∃ k, readEntries strict levels (fuel + 1) es i = .ok (Entries.put (.text key) v es, k) ∧
      k.text = rest := by
  obtain ⟨tail, j, k, hquote, hj, hcolon, hk, hafter⟩ := readEntry hblanks htext hhead hv
  have hbrace := skipBlanks_append hafter hbetween (by simp [isBlank])
  refine ⟨_, ?_, drop_one_text hbrace⟩
  simp only [readEntries, hquote, hj, bind, Except.bind, hcolon, hk, hbrace]
  rfl

theorem readEntries_next (es : List (JsonString × Json)) (hbetween : AreBlanks between)
    (htext : i.text = stringLiteral (JsonString.text key).points ++ ':' :: (blanks ++ inner))
    (hhead : ∀ c ∈ inner.head?, isBlank c = false)
    (hv : ∀ {j : Input}, j.text = inner →
      ∃ k, readValue strict levels fuel j = .ok (v, k) ∧ k.text = ',' :: (between ++ '"' :: rest)) :
    ∃ k, readEntries strict levels (fuel + 1) es i =
        readEntries strict levels fuel (Entries.put (.text key) v es) k ∧
      k.text = '"' :: rest := by
  obtain ⟨tail, j, k, hquote, hj, hcolon, hk, hafter⟩ := readEntry hblanks htext hhead hv
  have hcomma := skipBlanks_cons hafter (by decide)
  refine ⟨_, ?_, skipBlanks_drop_one hbetween hcomma (by simp [isBlank])⟩
  simp only [readEntries, hquote, hj, bind, Except.bind, hcolon, hk, hcomma]

end

end

section

variable {l : Layout}

/-- What a value is followed by does not change how it begins. -/
theorem write_append_head {v : Json} (hv : v.IsWritable) (level : Nat) (rest : List Char) :
    ∀ c ∈ (write l level v ++ rest).head?, isBlank c = false ∧ c ≠ ']' := by
  obtain ⟨c, tail, hhead, hblank, hmem⟩ := write_head hv l level
  rw [hhead]
  intro d hd
  obtain rfl := Option.some.inj hd
  exact ⟨hblank, fun h => hmem (by simp [h])⟩

theorem itemsText_head {v : Json} {vs : List Json} (hv : v.IsWritable) (level : Nat)
    (rest : List Char) :
    ∀ c ∈ (itemsText l level (v :: vs) ++ rest).head?, isBlank c = false ∧ c ≠ ']' := by
  rw [itemsText, List.append_assoc]
  exact write_append_head hv level _

end

mutual

/-- A value is read up to what ends it. -/
theorem readValue_write {l : Layout} (hl : l.IsReadable) : (v : Json) → v.IsWritable →
    (levels : Nat) → v.depth ≤ levels → (fuel : Nat) →
    ∀ {level : Nat} {i : Input} {rest : List Char}, EndsValue rest →
    i.text = write l level v ++ rest → (write l level v).length ≤ fuel →
    ∃ j, readValue strict levels fuel i = .ok (v, j) ∧ j.text = rest
  | v, hv, levels, hlevels, fuel, level, i, rest, hrest, htext, hfuel => by
    obtain ⟨n, rfl⟩ : ∃ n, fuel = n + 1 := by
      obtain ⟨c, tail, hhead, -⟩ := write_head hv l level
      rw [hhead, List.length_cons] at hfuel
      exact ⟨fuel - 1, by omega⟩
    cases v with
    | null =>
      rw [write] at htext
      rw [readValue_scalar (by rw [htext]; simp), readScalar_null htext]
      exact ⟨_, rfl, by rw [Input.drop_text, htext]; rfl⟩
    | bool b =>
      have htext : i.text = (if b then "true" else "false").toList ++ rest := by
        rw [htext, write]
        cases b <;> rfl
      rw [readValue_scalar (by rw [htext]; cases b <;> simp), readScalar_bool htext]
      exact ⟨_, rfl, by rw [Input.drop_text, htext, List.drop_left]⟩
    | int n =>
      rw [write] at htext
      rw [IsWritable] at hv
      rw [readValue_number (isNumber_natText n) (by rw [← intText_eq]; exact htext)]
      exact readNumber_int hv hrest.endsNumber htext
    | float x =>
      rw [IsWritable] at hv
      obtain ⟨number, hfloat, hnumber, hvalue⟩ :=
        Binary64.exists_numberText hv.1 hv.2 numberWords
      rw [write, hnumber] at htext
      rw [readValue_number hfloat.isNumber htext, ← hvalue]
      exact readNumber_float hfloat hrest.endsNumber htext
    | string s =>
      rw [IsWritable] at hv
      obtain ⟨text, rfl⟩ := hv
      rw [write] at htext
      obtain ⟨j, hj, hrest⟩ := @readString_stringLiteral strict rest text i htext
      refine ⟨j, ?_, hrest⟩
      have hquote : i.text = '"' :: ((JsonString.text text).points.flatMap escapePoint ++ ['"'] ++
          rest) := by rw [htext]; rfl
      rw [readValue, hquote]
      simp only [hj]
      rfl
    | array items =>
      rw [IsWritable] at hv
      obtain ⟨m, rfl, hm⟩ : ∃ m, levels = m + 1 ∧ depthOfItems items ≤ m := by
        rw [depth] at hlevels
        exact ⟨levels - 1, by omega, by omega⟩
      cases items with
      | nil =>
        rw [write] at htext
        exact readValue_emptyArray htext
      | cons v vs =>
        rw [write_array] at htext hfuel
        simp only [List.cons_append, List.append_assoc, List.nil_append] at htext
        simp only [List.length_cons, List.length_append] at hfuel
        obtain ⟨j, hj, hinner⟩ := @readValue_array strict i m n _ _ (l.areBlanks_newLine _) htext
          (itemsText_head hv.1 _ _)
        obtain ⟨k, hk, hrest⟩ := readItems_write hl (v :: vs) (List.cons_ne_nil v vs) hv m hm n
          (l.areBlanks_newLine level) hinner (by omega)
        exact ⟨k, by rw [hj, hk]; rfl, hrest⟩
    | object entries =>
      rw [IsWritable] at hv
      obtain ⟨m, rfl, hm⟩ : ∃ m, levels = m + 1 ∧ depthOfEntries entries ≤ m := by
        rw [depth] at hlevels
        exact ⟨levels - 1, by omega, by omega⟩
      cases entries with
      | nil =>
        rw [write] at htext
        exact readValue_emptyObject htext
      | cons e es =>
        rw [write_object] at htext hfuel
        simp only [List.cons_append, List.append_assoc, List.nil_append] at htext
        simp only [List.length_cons, List.length_append] at hfuel
        obtain ⟨j, hj, hinner⟩ := @readValue_object strict i m n _ _ (l.areBlanks_newLine _) htext
        obtain ⟨k, hk, hrest⟩ := readEntries_write hl (e :: es) (List.cons_ne_nil e es) hv.2 [] hv.1
          m hm n (l.areBlanks_newLine level) hinner (by omega)
        exact ⟨k, by rw [hj, hk]; rfl, hrest⟩

theorem readItems_write {l : Layout} (hl : l.IsReadable) : (items : List Json) → items ≠ [] →
    AreWritable items → (levels : Nat) → depthOfItems items ≤ levels → (fuel : Nat) →
    ∀ {level : Nat} {i : Input} {blanks rest : List Char},
    AreBlanks blanks → i.text = itemsText l level items ++ (blanks ++ ']' :: rest) →
    (itemsText l level items).length < fuel →
    ∃ j, readItems strict levels fuel i = .ok (items, j) ∧ j.text = rest
  | [], h, _, _, _, _, _, _, _, _, _, _, _ => absurd rfl h
  | [v], _, hv, levels, hlevels, fuel, level, i, blanks, rest, hblanks, htext, hfuel => by
    obtain ⟨n, rfl⟩ : ∃ n, fuel = n + 1 := ⟨fuel - 1, by omega⟩
    have hsingle : itemsText l level [v] = write l level v := List.append_nil _
    rw [hsingle] at htext hfuel
    obtain ⟨j, hj, hafter⟩ :=
      readValue_write hl v hv.1 levels (Nat.max_le.mp hlevels).1 n
        (.blanks_append hblanks (.cons (by simp) rest)) htext (by omega)
    exact readItems_last hblanks hj hafter
  | v :: w :: vs, _, hv, levels, hlevels, fuel, level, i, blanks, rest, hblanks, htext, hfuel => by
    obtain ⟨n, rfl⟩ : ∃ n, fuel = n + 1 := ⟨fuel - 1, by omega⟩
    obtain ⟨between, hbetween, hitems⟩ := itemsText_cons_cons hl level v w vs
    rw [hitems] at htext hfuel
    simp only [List.append_assoc, List.cons_append] at htext
    simp only [List.length_cons, List.length_append] at hfuel
    obtain ⟨j, hj, hafter⟩ :=
      readValue_write hl v hv.1 levels (Nat.max_le.mp hlevels).1 n (.cons (by simp) _) htext (by omega)
    obtain ⟨k, hk, hinner⟩ :=
      readItems_next hbetween hj hafter fun c hc => (itemsText_head hv.2.1 _ _ c hc).1
    obtain ⟨m, hm, hrest⟩ :=
      readItems_write hl (w :: vs) (List.cons_ne_nil w vs) hv.2 levels (Nat.max_le.mp hlevels).2 n
        hblanks hinner (by omega)
    exact ⟨m, by rw [hk, hm]; rfl, hrest⟩

theorem readEntries_write {l : Layout} (hl : l.IsReadable) :
    (entries : List (JsonString × Json)) → entries ≠ [] → AreWritableEntries entries →
    (before : List (JsonString × Json)) → ((before ++ entries).map (·.1)).Nodup → (levels : Nat) →
    depthOfEntries entries ≤ levels → (fuel : Nat) →
    ∀ {level : Nat} {i : Input} {blanks rest : List Char}, AreBlanks blanks →
    i.text = entriesText l level entries ++ (blanks ++ '\x7d' :: rest) →
    (entriesText l level entries).length < fuel →
    ∃ j, readEntries strict levels fuel before i = .ok (before ++ entries, j) ∧ j.text = rest
  | [], h, _, _, _, _, _, _, _, _, _, _, _, _, _ => absurd rfl h
  | [(key, v)], _, hv, before, hkeys, levels, hlevels, fuel, level, i, blanks, rest, hblanks, htext,
      hfuel => by
    obtain ⟨n, rfl⟩ : ∃ n, fuel = n + 1 := ⟨fuel - 1, by omega⟩
    obtain ⟨⟨key, rfl⟩, hv, -⟩ := hv
    obtain ⟨behind, hbehind, hentry⟩ := entriesText_singleton hl level (JsonString.text key, v)
    rw [hentry] at htext hfuel
    simp only [List.append_assoc, List.cons_append] at htext
    simp only [List.length_cons, List.length_append] at hfuel
    obtain ⟨j, hj, hrest⟩ := readEntries_last hbehind before hblanks htext
      (fun c hc => (write_append_head hv level _ c hc).1)
      (fun hinner => readValue_write hl v hv levels (Nat.max_le.mp hlevels).1 n
        (.blanks_append hblanks (.cons (by simp) rest)) hinner
        (by omega))
    rw [put_of_notMem (notMem_of_nodup hkeys)] at hj
    exact ⟨j, hj, hrest⟩
  | (key, v) :: f :: es, _, hv, before, hkeys, levels, hlevels, fuel, level, i, blanks, rest, hblanks, htext,
      hfuel => by
    obtain ⟨n, rfl⟩ : ∃ n, fuel = n + 1 := ⟨fuel - 1, by omega⟩
    obtain ⟨⟨key, rfl⟩, hv, hes⟩ := hv
    obtain ⟨behind, between, hbehind, hbetween, hentries⟩ :=
      entriesText_cons_cons hl level (JsonString.text key, v) f es
    obtain ⟨tail, htail⟩ := entriesText_head (l := l) level f es (blanks ++ '\x7d' :: rest)
    rw [hentries] at htext hfuel
    simp only [List.append_assoc, List.cons_append, htail] at htext
    simp only [List.length_cons, List.length_append] at hfuel
    obtain ⟨j, hj, hinner⟩ := readEntries_next hbehind before hbetween htext
      (fun c hc => (write_append_head hv level _ c hc).1)
      (fun hinner => readValue_write hl v hv levels (Nat.max_le.mp hlevels).1 n (.cons (by simp) _)
        hinner (by omega))
    rw [put_of_notMem (notMem_of_nodup hkeys)] at hj
    obtain ⟨k, hk, hrest⟩ := readEntries_write hl (f :: es) (List.cons_ne_nil f es) hes
      (before ++ [(JsonString.text key, v)]) (by simpa using hkeys) levels (Nat.max_le.mp hlevels).2 n hblanks
      (hinner.trans htail.symm) (by omega)
    exact ⟨k, by rw [hj, hk, List.append_assoc]; rfl, hrest⟩

end

/-- A value that is written with blanks behind it is the value that is read. -/
theorem read_write {l : Layout} (hl : l.IsReadable) {v : Json} (hv : v.IsWritable)
    {levels : Nat} (hlevels : v.depth ≤ levels) {blanks : List Char} (hblanks : AreBlanks blanks) :
    read strict levels (write l 0 v ++ blanks) = .ok v := by
  obtain ⟨c, tail, hhead, hblank, hmark⟩ := write_head hv l 0
  have hnoMark : (write l 0 v ++ blanks).head? ≠ some '\uFEFF' := by
    rw [hhead]
    rintro ⟨⟩
    exact hmark List.mem_cons_self
  have hstart : (skipBlanks (Input.ofText (write l 0 v ++ blanks))).text = write l 0 v ++ blanks := by
    rw [hhead]
    exact skipBlanks_cons rfl hblank
  have hends : EndsValue blanks := by
    have hnil : EndsValue [] := fun _ hc => by cases hc
    have happend := hnil.blanks_append hblanks
    rwa [List.append_nil] at happend
  have hfuel : (write l 0 v).length ≤ 2 * (write l 0 v ++ blanks).length + 2 := by
    rw [List.length_append]
    omega
  obtain ⟨j, hj, hend⟩ := @readValue_write strict l hl v hv _ hlevels _ _ _ _ hends hstart hfuel
  have hfinish : finish v j = .ok v := by
    have hnext : (skipBlanks j).text = [] :=
      skipBlanks_append (hend.trans (List.append_nil blanks).symm) hblanks (by simp)
    simp [finish, hnext]
  rw [read, if_neg hnoMark]
  simp only [bind, Except.bind, hj, hfinish]

/-- A line of JSON is read back, whatever its layout. -/
theorem read_line {l : Layout} (hl : l.IsReadable) {v : Json} (hv : v.IsWritable) {levels : Nat}
    (hlevels : v.depth ≤ levels) : read strict levels (v.render l ++ "\n").toList = .ok v := by
  have htext : (v.render l ++ "\n").toList = write l 0 v ++ ['\n'] := by
    rw [String.toList_append, render, String.toList_ofList]
    rfl
  rw [htext]
  exact read_write hl hv hlevels (by simp [AreBlanks, isBlank])

/-- A value written as a text of its own is the value that is read. -/
theorem read_render {v : Json} (hv : v.IsWritable) {levels : Nat} (hlevels : v.depth ≤ levels) :
    read strict levels (v.render .compact).toList = .ok v := by
  have htext : (v.render .compact).toList = write .compact 0 v ++ [] := by
    rw [List.append_nil]
    exact String.toList_ofList
  rw [htext]
  exact read_write Layout.isReadable_compact hv hlevels (by simp [AreBlanks])

end GraphQLDoc.Json
