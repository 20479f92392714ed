import Mathlib.Data.List.TakeWhile
import GraphQLDoc.Proofs.CommandLine.Check
import GraphQLDoc.Proofs.Parse.Newlines
import GraphQLDoc.Proofs.Printing.Words
import GraphQLDoc.Proofs.Text.Utf8

/-!
Printing the document of a file. Whatever the width of indentation, the text that is printed is read
back as the same JSON, and that is decoded to the document that the text of the file is. Every integer
that can be read may be asked for as a width; those of more than 64 bits are a fault, as is a text
that does not fit into the memory.
-/
namespace GraphQLDoc.CommandLine

open Compile

variable {g : Grammar} {a file : String} {arguments rest : List String} {n : Int} {indent : Option Int}
  {fs : FileSystem} {text : List Char} {d : Document}

/-! Asking for a width. -/

theorem ne_dashes (h : a.toList.head? ≠ some '-') : a ≠ "--" := by
  rintro rfl
  exact h rfl

theorem kindsOf_operand (h : a.toList.head? ≠ some '-') :
    kindsOf g (a :: rest) = (kindsOf g rest).map (Kind.operand a :: ·) := by
  have hstarts : a.startsWith "-" = false := by
    rw [Bool.eq_false_iff]
    intro hstarts
    obtain ⟨tail, htail⟩ := String.startsWith_string_iff.mp hstarts
    rw [← htail] at h
    exact h rfl
  rw [kindsOf, if_neg (ne_dashes h)]
  simp only [hstarts]
  cases kindsOf g rest <;> rfl

theorem kindsOf_dash {tail : List Char} {k : Kind} (h : a.toList = '-' :: tail) (hne : tail ≠ ['-'])
    (hk : writtenOption g a = .ok k) :
    kindsOf g (a :: rest) = (kindsOf g rest).map (k :: ·) := by
  have hdashes : a ≠ "--" := by
    rintro rfl
    exact hne (List.cons.inj h).2.symm
  have hstarts : a.startsWith "-" = true := String.startsWith_string_iff.mpr ⟨tail, h.symm⟩
  rw [kindsOf, if_neg hdashes]
  simp only [hstarts, hk]
  cases kindsOf g rest <;> rfl

/-- No option begins like a negative number. -/
def HasNoNumbers (g : Grammar) : Prop :=
  ∀ o ∈ g.options, ∀ c, isDigit c = true → ¬ ['-', c] <+: o.1.toList

theorem hasNoNumbers_of
    (h : ∀ o ∈ g.options, (o.1.toList[1]?).all (fun c => !isDigit c) = true) : HasNoNumbers g := by
  intro o ho c hc hprefix
  obtain ⟨tail, htail⟩ := hprefix
  have hsecond := h o ho
  rw [← htail] at hsecond
  simp [hc] at hsecond

theorem hasNoNumbers_main : HasNoNumbers mainGrammar := hasNoNumbers_of (by decide)

theorem hasNoNumbers_parse : HasNoNumbers parseGrammar := hasNoNumbers_of (by decide)

theorem isNegativeNumber_of_isWhole {ds : List Char} (h : Pattern.IsWhole ds) :
    isNegativeNumber ('-' :: ds) = true := by
  have hnot {c : Char} (hc : isDigit c = false) : c ∉ ds := fun hmem =>
    Pattern.ne_of_isDigit (h.digits c hmem) hc rfl
  have hlast : ('-' :: ds).getLast? ≠ some '\n' := by
    intro hlast
    rcases List.mem_cons.mp (List.mem_of_getLast? hlast) with heq | hmem
    · cases heq
    · exact hnot (by decide) hmem
  have hall : (ds.all fun c => (decimalDigit? c).isSome) = true := by
    refine List.all_eq_true.mpr fun c hc => ?_
    rw [Numeral.decimalDigit?_of_isDigit (h.digits c hc)]
    rfl
  have hsplit : ds.splitOn '.' = [ds] := List.splitOn_eq_singleton (hnot (by decide))
  simp [isNegativeNumber, hlast, hsplit, hall, h.nonempty]

/-- A negative number is an operand where no option looks like one. -/
theorem writtenOption_negative (hg : HasNoNumbers g) {ds : List Char} (h : Pattern.IsWhole ds)
    (ha : a.toList = '-' :: ds) : writtenOption g a = .ok (.operand a) := by
  obtain ⟨c, tail, hds, hc⟩ := h.head
  have hnone {o : String × Switch} (ho : o ∈ g.options) : ¬ a.toList <+: o.1.toList := by
    intro hprefix
    rw [ha, hds] at hprefix
    exact hg o ho c hc (List.IsPrefix.trans ⟨tail, rfl⟩ hprefix)
  have hexactly (value : Option (List Char)) : exactly? g a a.toList value = none := by
    rw [exactly?, List.find?_eq_none.mpr, Option.map_none]
    intro o ho heq
    rw [beq_iff_eq] at heq
    exact hnone ho (heq ▸ List.prefix_rfl)
  have hcut : cutEquals a.toList = (a.toList, none) := by
    have hall : a.toList.takeWhile (· != '=') = a.toList := by
      refine List.takeWhile_eq_self_iff.mpr fun d hd => ?_
      rw [ha] at hd
      rcases List.mem_cons.mp hd with rfl | hd
      · rfl
      · exact bne_iff_ne.mpr (Pattern.ne_of_isDigit (h.digits d hd) (by decide))
    simp [cutEquals, hall]
  have hcandidates : candidates g a = [] := by
    have hletters {o : String × Switch} (ho : o ∈ g.options) : o.1.toList ≠ ['-', c] :=
      fun hname => hg o ho c hc ⟨[], hname.symm⟩
    rw [hds] at ha
    unfold candidates
    rw [ha]
    split
    · rename_i heq
      cases heq
      cases hc
    · rename_i heq
      cases heq
      refine List.filterMap_eq_nil_iff.mpr fun o ho => ?_
      rw [if_neg (hletters ho), if_neg]
      rw [← ha, List.isPrefixOf_iff_prefix]
      exact hnone ho
    · rfl
  have hlength : a.toList.length ≠ 1 := by
    simp [ha, h.nonempty]
  have hnegative : isNegativeNumber a.toList = true := ha ▸ isNegativeNumber_of_isWhole h
  simp [writtenOption, hexactly, hcut, hcandidates, hlength, hnegative]

theorem kindsOf_intText (hg : HasNoNumbers g) :
    kindsOf g (String.ofList (intText n) :: rest) =
      (kindsOf g rest).map (Kind.operand (String.ofList (intText n)) :: ·) := by
  have htext : (String.ofList (intText n)).toList =
      Pattern.signText (decide (n < 0)) ++ natText n.natAbs := by
    rw [String.toList_ofList, intText_signed]
  have hwhole := isWhole_natText n.natAbs
  obtain ⟨c, tail, htail, hc⟩ := hwhole.head
  by_cases hn : n < 0
  · have hnegative : (String.ofList (intText n)).toList = '-' :: natText n.natAbs := by
      simpa [hn, Pattern.signText] using htext
    refine kindsOf_dash hnegative ?_ (writtenOption_negative hg hwhole hnegative)
    rw [htail]
    rintro ⟨⟩
    cases hc
  · have hplain : (String.ofList (intText n)).toList = natText n.natAbs := by
      simpa [hn, Pattern.signText] using htext
    refine kindsOf_operand ?_
    rw [hplain, htail]
    intro hdash
    exact Pattern.ne_of_isDigit hc (by decide) (Option.some.inj hdash)

theorem integer?_intText (h : (natText n.natAbs).length ≤ Json.maxIntegerDigits) :
    integer? (intText n) = some n := by
  simp only [integer?, intText_signed, Numeral.literalInt?_eq (isWhole_natText _), Option.bind_some,
    digitsValue_natText, signed_natAbs, if_neg (Nat.not_lt.mpr h)]

theorem read_of_kinds {kinds : List Kind} (h : kindsOf g rest = .ok kinds) :
    read g rest = take g (2 * kinds.length + 1) kinds ⟨none, none, []⟩ := by
  rw [read, h]
  rfl

theorem take_nil (operands : List String) (fuel : Nat) :
    take g fuel [] ⟨indent, some operands, []⟩ = .ok ⟨indent, some operands, []⟩ := by
  cases fuel <;> rfl

theorem take_option {w : Written} {kinds left : List Kind} {r r' : Reading} (fuel : Nat)
    (h : takeOption g w kinds r = .ok (left, r')) :
    take g (fuel + 1) (.option w :: kinds) r = take g fuel left r' := by
  rw [take, if_pos (by simp [Kind.isOption])]
  dsimp only
  rw [h]
  rfl

/-- The file behind everything else. -/
theorem take_file (hne : file ≠ "--") (fuel : Nat) : take parseGrammar (fuel + 1) [.operand file]
    ⟨indent, none, []⟩ = .ok ⟨indent, some [file], []⟩ := by
  have htaken : takeOperands parseGrammar [.operand file] ⟨indent, none, []⟩ =
      ([], ⟨indent, some [file], []⟩) := by
    show ([], Reading.mk indent (some ([file].erase "--")) []) = _
    rw [List.erase_of_not_mem (by simpa using Ne.symm hne)]
  simp [take, Kind.isOption, htaken]

/-- The arguments behind the name of the command are read on their own. -/
theorem command_of_read {kinds : List Kind}
    (hkinds : kindsOf mainGrammar rest = .ok kinds) (htexts : kinds.map Kind.text = rest)
    (hread : read parseGrammar rest = .ok ⟨indent, some [file], []⟩) :
    command ("parse" :: rest) = .ok (.parse file indent) := by
  have htaken : takeOperands mainGrammar (.operand "parse" :: kinds) ⟨none, none, []⟩ =
      ([], ⟨none, some ("parse" :: rest), []⟩) := by
    show (List.drop (kinds.length + 1) (Kind.operand "parse" :: kinds), Reading.mk none
      (some (List.map Kind.text (List.take (kinds.length + 1) (Kind.operand "parse" :: kinds)))) []) = _
    simp [htexts, Kind.text]
  have hmain : read mainGrammar ("parse" :: rest) = .ok ⟨none, some ("parse" :: rest), []⟩ := by
    have hall : kindsOf mainGrammar ("parse" :: rest) = .ok (.operand "parse" :: kinds) := by
      rw [kindsOf_operand (by decide), hkinds]
      rfl
    rw [read_of_kinds hall]
    simp [take, htaken, take_nil]
  rw [command, hmain]
  simp [Bind.bind, Except.bind, subcommands, Subcommand.word, subcommand, Subcommand.grammar, hread,
    pure, Except.pure]

/-- The arguments that ask for a width in decimal digits. -/
def widthArguments : Option Int → List String
  | none => []
  | some n => ["--indent", String.ofList (intText n)]

/-- Every width can be asked for whose digits can be read. -/
theorem command_parse (hfile : file.toList.head? ≠ some '-')
    (hindent : ∀ n ∈ indent, (natText n.natAbs).length ≤ Json.maxIntegerDigits) :
    command ("parse" :: (widthArguments indent ++ [file])) = .ok (.parse file indent) := by
  have hne := ne_dashes hfile
  have hlast (g : Grammar) : kindsOf g [file] = .ok [.operand file] := by
    rw [kindsOf_operand hfile]
    rfl
  cases indent with
  | none =>
    refine command_of_read (hlast _) rfl ?_
    rw [widthArguments, List.nil_append, read_of_kinds (hlast _)]
    exact take_file hne _
  | some n =>
    have hkinds {g : Grammar} {k : Kind} (hg : HasNoNumbers g)
        (hk : writtenOption g "--indent" = .ok k) : kindsOf g (widthArguments (some n) ++ [file]) =
          .ok [k, .operand (String.ofList (intText n)), .operand file] := by
      show kindsOf g ("--indent" :: String.ofList (intText n) :: [file]) = _
      rw [kindsOf_dash (show "--indent".toList = '-' :: "-indent".toList from rfl) (by decide) hk,
        kindsOf_intText hg, hlast]
      rfl
    have hmain : writtenOption mainGrammar "--indent" =
        .ok (.option ⟨"--indent", none, none, false⟩) := rfl
    have hparse : writtenOption parseGrammar "--indent" =
        .ok (.option ⟨"--indent", some ("--indent", .indent), none, false⟩) := rfl
    have htaken : takeOption parseGrammar ⟨"--indent", some ("--indent", .indent), none, false⟩
        [.operand (String.ofList (intText n)), .operand file] ⟨none, none, []⟩ =
          .ok ([.operand file], ⟨some n, none, []⟩) := by
      simp only [takeOption, String.toList_ofList, indentOf, integer?_intText (hindent n rfl)]
      rfl
    refine command_of_read (hkinds hasNoNumbers_main hmain) rfl ?_
    rw [read_of_kinds (hkinds hasNoNumbers_parse hparse), take_option _ htaken]
    exact take_file hne _

/-! What is printed. -/

/-- A width fits into 64 bits. -/
def HasBits (width : Int) : Prop := minInt64 ≤ width ∧ width ≤ maxInt64

instance (width : Int) : Decidable (HasBits width) := inferInstanceAs (Decidable (_ ∧ _))

theorem isReadable_layoutOf (indent : Option Int) : (layoutOf indent).IsReadable := by
  cases indent with
  | none => exact Json.Layout.isReadable_spaced
  | some n => exact Json.Layout.isReadable_indented n

/-- The blanks of a width are part of what is printed. -/
theorem width_le_length (d : Document) (n : Int) :
    n ≤ (d.toJson.render (layoutOf (some n))).length := by
  have hline : n.toNat ≤ (d.toJson.render (layoutOf (some n))).length := by
    simp [Document.toJson, Json.record, Json.render, Json.write, layoutOf, Json.Layout.indented,
      Json.Layout.newLine]
    omega
  omega

section Machines

variable [Machine]

theorem printed_eq (hnesting : d.nesting ≤ maxNesting) (hbits : ∀ n ∈ indent, HasBits n) :
    printed d indent = if (d.toJson.render (layoutOf indent)).length ≤ Machine.characters
      then .ok (d.toJson.render (layoutOf indent)) else .error .memory := by
  rw [printed, Document.dump, if_pos hnesting]
  dsimp only
  cases indent with
  | none => rfl
  | some n =>
    have hbits : minInt64 ≤ n ∧ n ≤ maxInt64 := hbits n rfl
    rw [checkWidth, if_neg (not_not.mpr hbits)]
    by_cases hfits : n ≤ (Machine.characters : Int)
    · rw [if_pos hfits]
    · have hlong := width_le_length d n
      rw [if_neg hfits, if_neg (by omega)]

theorem printed_wide (hnesting : d.nesting ≤ maxNesting) (hwide : ¬ HasBits n) :
    printed d (some n) = .error (.width n) := by
  have hwide : ¬ (minInt64 ≤ n ∧ n ≤ maxInt64) := hwide
  rw [printed, Document.dump, if_pos hnesting]
  dsimp only
  rw [checkWidth, if_pos hwide]

theorem run_parse {output : String} (hcommand : command arguments = .ok (.parse file indent))
    (hparse : parseFile fs (.ofString file) = .ok d) (hprinted : printed d indent = .ok output) :
    run arguments fs = .done 0 (output ++ "\n") "" fs := by
  rw [run, hcommand]
  simp only [Command.run, CommandLine.parse, hparse, hprinted]

theorem run_parse_fault {f : Fault} (hcommand : command arguments = .ok (.parse file indent))
    (hparse : parseFile fs (.ofString file) = .ok d) (hprinted : printed d indent = .error f) :
    run arguments fs = .faulted f fs := by
  rw [run, hcommand]
  simp only [Command.run, CommandLine.parse, hparse, hprinted]

/-- The text that is printed for a file that holds a document is read back as the JSON of that document,
and decoded to it. Nothing is printed, and that is a fault, where nodes are nested too deeply, where the
width has more than 64 bits and where the text does not fit into the memory. -/
theorem run_parse_prints (hcommand : command arguments = .ok (.parse file indent))
    (hfile : fs.read (.ofString file) = .ok (Utf8.encode text))
    (hdocument : parseDocument text = .ok d) (hcalls : Artifact.maxDepth ≤ Machine.calls) :
    (d.nesting ≤ maxNesting → (∀ n ∈ indent, HasBits n) →
      ((d.toJson.render (layoutOf indent)).length ≤ Machine.characters → ∃ output v,
        run arguments fs = .done 0 output "" fs ∧
          Json.read true Machine.calls output.toList = .ok v ∧ Decoder.document v = .ok d) ∧
      (Machine.characters < (d.toJson.render (layoutOf indent)).length →
        run arguments fs = .faulted .memory fs)) ∧
    (d.nesting ≤ maxNesting → ∀ n ∈ indent, ¬ HasBits n → run arguments fs = .faulted (.width n) fs) ∧
    (maxNesting < d.nesting → run arguments fs = .faulted (.dump .tooDeep) fs) := by
  have hparse : parseFile fs (.ofString file) = .ok d :=
    (parseFile_eq_ok hfile (Utf8.decode_encode text)).mpr hdocument
  have hplain := isPlain_of_parseDocument hdocument
  refine ⟨fun hnesting hbits => ?_, fun hnesting n hn hwide => ?_, fun hdeep => ?_⟩
  · have hprinted := printed_eq hnesting hbits
    refine ⟨fun hfits => ?_, fun hlong => ?_⟩
    · rw [if_pos hfits] at hprinted
      have hdepth : d.toJson.depth ≤ Machine.calls := by
        have hle := d.depth_toJson_le
        unfold Artifact.maxDepth at hcalls
        omega
      exact ⟨_, d.toJson, run_parse hcommand hparse hprinted, Json.read_line (isReadable_layoutOf indent)
        (d.isWritable_toJson hplain.valid hplain.texts) hdepth,
        Decoder.document_toJson hplain.valid hnesting⟩
    · rw [if_neg (Nat.not_le.mpr hlong)] at hprinted
      exact run_parse_fault hcommand hparse hprinted
  · obtain rfl : indent = some n := hn
    exact run_parse_fault hcommand hparse (printed_wide hnesting hwide)
  · refine run_parse_fault hcommand hparse ?_
    rw [printed, Document.dump, if_neg (Nat.not_le.mpr hdeep)]

end Machines

/-- The source of a workspace is named with a width. -/
theorem command_plainFiles {width : String} (hwidth : width = String.ofList (intText n))
    (hn : (natText n.natAbs).length ≤ Json.maxIntegerDigits) :
    command ["parse", "--indent", width, "a.graphql"] = .ok (.parse "a.graphql" (some n)) := by
  rw [hwidth]
  have hindent : ∀ m ∈ some n, (natText m.natAbs).length ≤ Json.maxIntegerDigits := by
    rintro m ⟨⟩
    exact hn
  exact command_parse (show "a.graphql".toList.head? ≠ some '-' by decide) hindent

theorem plainFiles_read : plainFiles.read (.ofString "a.graphql") = .ok (Utf8.encode exampleText) := by
  decide

/-- A document that is printed with a negative width. -/
theorem plainFiles_prints : ∃ output v,
    @run .usual ["parse", "--indent", "-3", "a.graphql"] plainFiles = .done 0 output "" plainFiles ∧
      Json.read true Machine.usual.calls output.toList = .ok v ∧
      Decoder.document v = .ok exampleDocument := by
  have hcommand : command ["parse", "--indent", "-3", "a.graphql"] =
      .ok (.parse "a.graphql" (some (-3))) :=
    command_plainFiles (by decide) (by decide)
  refine ((@run_parse_prints _ _ _ _ _ _ .usual hcommand plainFiles_read
    (@parseDocument_exampleText .usual) (by decide)).1 (by decide) ?_).1 (by decide)
  rintro n ⟨⟩
  decide

/-- A width that leaves 64 bits by one, and what is printed then is no JSON. -/
theorem plainFiles_width :
    letI := Machine.usual
    plainFiles.read (.ofString "a.graphql") = .ok (Utf8.encode exampleText) ∧
      parseDocument exampleText = .ok exampleDocument ∧
      command ["parse", "--indent", "-9223372036854775809", "a.graphql"] =
        .ok (.parse "a.graphql" (some (-9223372036854775809))) ∧
      run ["parse", "--indent", "-9223372036854775809", "a.graphql"] plainFiles =
        .faulted (.width (-9223372036854775809)) plainFiles ∧
      ∀ v, Json.read true Machine.calls (run ["parse", "--indent", "-9223372036854775809",
        "a.graphql"] plainFiles).output.toList ≠ .ok v := by
  let := Machine.usual
  have hcommand : command ["parse", "--indent", "-9223372036854775809", "a.graphql"] =
      .ok (.parse "a.graphql" (some (-9223372036854775809))) :=
    command_plainFiles (by decide) (by decide)
  have hparse : parseFile plainFiles (.ofString "a.graphql") = .ok exampleDocument :=
    parseFile_exampleText plainFiles_read
  have hrun := run_parse_fault hcommand hparse (printed_wide (by decide) (by decide))
  refine ⟨plainFiles_read, parseDocument_exampleText, hcommand, hrun, ?_⟩
  rw [hrun]
  exact nofun

end GraphQLDoc.CommandLine
