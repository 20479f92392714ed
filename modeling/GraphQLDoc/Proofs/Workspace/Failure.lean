import GraphQLDoc.Proofs.Workspace.Progress

/-!
Compilations that fail. The source that an error is about leaves everything as it was, and what those
in front of it left are their artifacts.
-/
namespace GraphQLDoc.Compile

open FileSystem

variable {start fs gs : FileSystem} {root build s : Path} {sources : Set Path}
  {before : List Path} {done : List (String × Document)} {k text : String} {q : List String}
  {e : CompileError}

section Turns

variable [Machine]

/-- A source without a key, for a reason that is told, had none at the start. -/
theorem IsBuilt.key_error (h : IsBuilt start root build sources fs)
    (hk : key fs root s = .error e) (hreport : report e = some text) (k : String) :
    key start root s ≠ .ok k := by
  intro hstart
  obtain ⟨p, q, parts, hp, hq, hparts, hne, -, -⟩ := exists_parts_of_key hstart
  have hsource : s.hasNull = false := (resolve_eq_ok_iff.mp hp).1
  have hroot : root.hasNull = false := (resolve_eq_ok_iff.mp hq).1
  unfold key at hk
  split at hk
  · cases hk
    cases hreport
  · rename_i hnull
    rw [hasNull_of_resolve hnull] at hsource
    cases hsource
  · cases hk
    cases hreport
  · rename_i hnull
    rw [hasNull_of_resolve hnull] at hroot
    cases hroot
  · rename_i hp' hq'
    obtain rfl := h.links.resolve_eq hp hp'
    obtain rfl := h.links.resolve_eq hq hq'
    rw [hparts] at hk
    cases parts with
    | nil => exact hne rfl
    | cons part rest => cases hk

/-- The turn of a source that an error is about. -/
theorem filesInto_singleton_error (h : IsBuilt start root build sources fs)
    (hrun : filesInto build root [s] done fs = (.error e, gs)) (hreport : report e = some text) :
    gs = fs ∧ ∀ k, key start root s = .ok k → Entries.get? k done = none := by
  rw [filesInto] at hrun
  cases hk : key fs root s with
  | error e' =>
    rw [hk] at hrun
    cases hrun
    exact ⟨rfl, fun k hk' => absurd hk' (h.key_error hk hreport k)⟩
  | ok k =>
    rw [hk] at hrun
    dsimp only at hrun
    split at hrun
    · cases hrun
    · rename_i hnone
      have hkey := h.key_start hk
      cases hfile : file s (artifact build k) fs with
      | mk result made =>
        rw [hfile] at hrun
        cases result with
        | ok d => cases hrun
        | error e' =>
          cases hrun
          refine ⟨(file_eq_error hfile hreport).1, fun k' hk' => ?_⟩
          obtain rfl := Except.ok.inj (hkey.symm.trans hk')
          simpa using hnone

/-- The artifact of a source that is not compiled yet is as it was. -/
theorem Progress.sameContent (h : Progress start root build before done fs)
    (hapart : IsApart start root build {t | t ∈ before ++ [s]})
    (hways : HasClearWays start root build {t | t ∈ before ++ [s]})
    (hk : key start root s = .ok k) (hnone : Entries.get? k done = none)
    (hq : start.LeadsTo (artifact build k) q) : SameContent (start.node? q) (fs.node? q) := by
  have hs : s ∈ before ++ [s] := List.mem_append_right _ (List.mem_singleton_self s)
  have hother {t : Path} {l : String} (hl : HasKey start root {t | t ∈ before} t l) :
      t ∈ before ++ [s] ∧ k ≠ l := by
    refine ⟨List.mem_append_left _ hl.1, ?_⟩
    rintro rfl
    obtain ⟨l, d, hl', hd⟩ := h.keys t hl.1
    obtain rfl := Except.ok.inj (hl.2.symm.trans hl')
    rw [hnone] at hd
    cases hd
  rcases h.node q with hmade | ⟨-, t, l, -, hl, hleads, -⟩
  · generalize start.node? q = n, fs.node? q = n' at hmade
    cases hmade with
    | same => exact .same _
    | touched => exact .directory _ _
    | made hway =>
      obtain ⟨t, l, hl, hcomes⟩ := hway
      obtain ⟨ht, hne⟩ := hother hl
      exact absurd hcomes (hways s hs t ht k l hk hl.2 hne q hq)
  · obtain ⟨ht, hne⟩ := hother hl
    exact absurd (hapart.artifact_unique ⟨⟨s, hs, hk⟩, hq⟩ ⟨⟨t, ht, hl.2⟩, hleads⟩) hne

/-- Where a compilation fails with an error about some source, every file is as it was before or is
the artifact of a source in front of that, for what that source says; the artifact of the source
itself is as it was, and so are all sources. -/
theorem files_error {list : List Path} (hapart : IsApart fs root build {s | s ∈ list})
    (hways : HasClearWays fs root build {s | s ∈ list})
    (hrun : files list build root fs = (.error e, gs)) (hreport : report e = some text) :
    ∃ before s after, list = before ++ s :: after ∧
      (∃ docs, files before build root fs = (.ok docs, gs)) ∧
      files (before ++ [s]) build root fs = (.error e, gs) ∧
      (∀ q, SameFile fs gs q ∨ ∃ t k d, t ∈ before ∧ key fs root t = .ok k ∧
        fs.LeadsTo (artifact build k) q ∧ parseFile gs t = .ok d ∧
        gs.node? q = some (.file (Artifact.bytesOf d) fs.now)) ∧
      (∀ k q, key fs root s = .ok k → fs.LeadsTo (artifact build k) q →
        SameContent (fs.node? q) (gs.node? q)) ∧
      ∀ t ∈ list, ∀ r, fs.LeadsTo t r → SameFile fs gs r := by
  obtain ⟨before, s, after, docs, mid, rfl, hbefore, hturn⟩ := exists_turn_of_error hrun
  have hfront : {t | t ∈ before ++ [s]} ⊆ {t | t ∈ before ++ s :: after} := fun t ht =>
    List.append_cons before s after ▸ List.mem_append_left after ht
  have hbeforeFront : {t | t ∈ before} ⊆ {t | t ∈ before ++ s :: after} :=
    fun t ht => List.mem_append_left _ ht
  have hprogress := files_progress (hapart.mono hbeforeFront) hbefore
  obtain ⟨rfl, hnone⟩ := filesInto_singleton_error hprogress.toIsBuilt hturn hreport
  refine ⟨before, s, after, rfl, ⟨docs, hbefore⟩, (files_concat hbefore).trans hturn,
    fun q => ?_, fun k q hk hq => ?_, fun t ht r hr => ?_⟩
  · rcases hprogress.node q with hmade | ⟨-, t, k, d, hk, hleads, hparse, hwritten⟩
    · exact .inl hmade.sameFile
    · exact .inr ⟨t, k, d, hk.1, hk.2, hleads, hparse, hwritten⟩
  · have hways' : HasClearWays fs root build {t | t ∈ before ++ [s]} :=
      fun t ht u hu => hways t (hfront ht) u (hfront hu)
    exact hprogress.sameContent (hapart.mono hfront) hways' hk (hnone k hk) hq
  · refine hprogress.sameFile fun u k hu hleads => ?_
    exact hapart.source_ne ht hr ⟨⟨u, hu.mono hbeforeFront⟩, hleads⟩ rfl

end Turns

/-! Examples. -/

/-- The sources `a`, `b` and `c`. -/
def mixedSources : List Path :=
  [⟨"", ["a.graphql"]⟩, ⟨"", ["b.graphql"]⟩, ⟨"", ["c.graphql"]⟩]

/-- A workspace `w` where `b` is no text and something stands in the place of the artifact of `a`. -/
def workspaceWith (n : FileNode) : FileSystem where
  nodes := [(["w"], .directory 0), (["w", "a.graphql"], .file (Utf8.encode exampleText) 0),
    (["w", "b.graphql"], .file [0xff] 0), (["w", "c.graphql"], .file (Utf8.encode exampleText) 0),
    (["w", "build"], .directory 0), (["w", "build", "a.graphql.json"], n)]
  workingDirectory := ["w"]
  now := 2

/-- The artifact is newer than its source but cannot be read. -/
def mixedFiles : FileSystem := workspaceWith (.file [0x7b] 1)

theorem mixedFiles_hasNoLinks : mixedFiles.HasNoLinks :=
  hasNoLinks_of_nodes (by simp [mixedFiles, workspaceWith])

theorem mixedFiles_isApart :
    IsApart mixedFiles .here (⟨"", ["build"]⟩) {s | s ∈ mixedSources} := by
  refine isApart_of_hasNoLinks (isSound_of_nodes (by decide) (by decide)) mixedFiles_hasNoLinks ?_ ?_
  · intro s hs parts hparts
    have hplain : ∀ s ∈ mixedSources, ∀ part ∈ (mixedFiles.placeOf s).drop 1,
        Path.IsPlainPart part := by decide
    have hroot : mixedFiles.placeOf .here = ["w"] := by decide
    rw [hroot] at hparts
    have hs' := hplain s hs
    rwa [hparts] at hs'
  · have houtside : ∀ s ∈ mixedSources,
        ¬ IsBelow (mixedFiles.placeOf ⟨"", ["build"]⟩) (mixedFiles.placeOf s) := by decide
    exact houtside

theorem mixedFiles_hasClearWays :
    HasClearWays mixedFiles .here (⟨"", ["build"]⟩) {s | s ∈ mixedSources} := by
  have hkeys : ∀ s ∈ mixedSources, ∀ k ∈ (key mixedFiles .here s).toOption,
      (artifact ⟨"", ["build"]⟩ k).parts.length = 2 ∧
        ".." ∉ (artifact ⟨"", ["build"]⟩ k).parts := by decide
  refine hasClearWays_of_length mixedFiles_hasNoLinks (n := 2) fun s hs k hk => ?_
  exact hkeys s hs k (by rw [hk]; rfl)

/-- The document of `a` and `c`. -/
def exampleDocument : Document := ⟨[.type ⟨none, "A", [], .scalar⟩]⟩

section Runs

variable [Machine]

theorem parseFile_of_parseDocument {text : List Char} {d : Document}
    (hread : fs.read s = .ok bytes) (htext : textOfFile bytes = .ok text)
    (hd : parseDocument text = .ok d) : parseFile fs s = .ok d := by
  obtain ⟨place, time, hfind⟩ := read_eq_ok.mp hread
  exact parseFile_eq_ok_iff.mpr ⟨place, _, time, hfind, text, htext, hd⟩

theorem parseFile_exampleText (hread : fs.read s = .ok (Utf8.encode exampleText)) :
    parseFile fs s = .ok exampleDocument :=
  parseFile_of_parseDocument hread (by decide) parseDocument_exampleText

/-- Whether an artifact cannot be loaded and is passed over. -/
def isPassedOver : Except ArtifactFileError Document → Bool
  | .ok _ => false
  | .error e => e.fault?.isNone

/-- A source in front whose artifact cannot be used but can be written. -/
theorem filesInto_of_parse {d : Document} (hparse : parseFile fs s = .ok d)
    (hkey : (key fs root s).toOption = some k) (hnone : Entries.get? k done = none)
    (hstale : isFresh fs s (artifact build k) = .ok false ∨
      isFresh fs s (artifact build k) = .ok true ∧
        isPassedOver (Artifact.load fs (artifact build k)) = true)
    (hsave : (Artifact.save d (artifact build k) fs).1.toOption = some ()) (rest : List Path) :
    filesInto build root (s :: rest) done fs =
      filesInto build root rest (done ++ [(k, d)]) (Artifact.save d (artifact build k) fs).2 := by
  refine filesInto_of_file (eq_ok_of_toOption hkey) hnone (file_of_parse
    (hstale.imp_right (.imp_right fun hload => ?_)) hparse
    (Prod.ext (eq_ok_of_toOption hsave) rfl)) rest
  cases hresult : Artifact.load fs (artifact build k) with
  | error e =>
    rw [hresult] at hload
    exact ⟨e, rfl, Option.isNone_iff_eq_none.mp hload⟩
  | ok d =>
    rw [hresult] at hload
    cases hload

theorem files_singleton_of_parse {d : Document} (hparse : parseFile fs s = .ok d)
    (hkey : (key fs root s).toOption = some k)
    (hstale : isFresh fs s (artifact build k) = .ok false)
    (hsave : (Artifact.save d (artifact build k) fs).1.toOption = some ()) :
    files [s] build root fs = (.ok [(k, d)], (Artifact.save d (artifact build k) fs).2) :=
  filesInto_of_parse hparse hkey rfl (.inl hstale) hsave []

theorem filesInto_exampleText (hread : fs.read s = .ok (Utf8.encode exampleText))
    (hkey : (key fs root s).toOption = some k) (hnone : Entries.get? k done = none)
    (hstale : isFresh fs s (artifact build k) = .ok false ∨
      isFresh fs s (artifact build k) = .ok true ∧
        isPassedOver (Artifact.load fs (artifact build k)) = true)
    (hsave : (Artifact.save exampleDocument (artifact build k) fs).1.toOption = some ())
    (rest : List Path) :
    filesInto build root (s :: rest) done fs =
      filesInto build root rest (done ++ [(k, exampleDocument)])
        (Artifact.save exampleDocument (artifact build k) fs).2 :=
  filesInto_of_parse (parseFile_exampleText hread) hkey hnone hstale hsave rest

/-- What is left when the artifact of `a` is saved. -/
def savedWith (n : FileNode) : FileSystem :=
  (Artifact.save exampleDocument (artifact ⟨"", ["build"]⟩ "a") (workspaceWith n)).2

end Runs

/-- The text that a compilation reports. -/
def reported : Except CompileError (List (String × Document)) → Option String
  | .ok _ => none
  | .error e => report e

theorem exists_report {run : Except CompileError (List (String × Document)) × FileSystem}
    (h : (reported run.1).isSome = true) :
    ∃ e gs text, run = (.error e, gs) ∧ report e = some text := by
  obtain ⟨text, htext⟩ := Option.isSome_iff_exists.mp h
  obtain ⟨result, gs⟩ := run
  cases result with
  | ok docs => cases htext
  | error e => exact ⟨e, gs, text, rfl, htext⟩

theorem mixedFiles_run : @files .usual mixedSources ⟨"", ["build"]⟩ .here mixedFiles =
    @filesInto .usual ⟨"", ["build"]⟩ .here mixedSources.tail [("a", exampleDocument)]
      (@savedWith .usual (.file [0x7b] 1)) :=
  @filesInto_exampleText _ _ _ _ _ _ .usual (by decide) (by decide) rfl (.inr (by decide))
    (by decide) _

/-- The second source fails; the artifact of the first one is written, and the sources stay. -/
theorem mixedFiles_error : ∃ e gs text,
    @files .usual mixedSources ⟨"", ["build"]⟩ .here mixedFiles = (.error e, gs) ∧ report e = some text ∧
    ∃ before s after, mixedSources = before ++ s :: after ∧
      (∃ docs, @files .usual before ⟨"", ["build"]⟩ .here mixedFiles = (.ok docs, gs)) ∧
      ∀ t ∈ mixedSources, ∀ r, mixedFiles.LeadsTo t r → SameFile mixedFiles gs r := by
  have hfails : (reported
      (@files .usual mixedSources ⟨"", ["build"]⟩ .here mixedFiles).1).isSome = true := by
    rw [mixedFiles_run]
    decide
  obtain ⟨e, gs, text, hrun, hreport⟩ := exists_report hfails
  obtain ⟨before, s, after, hlist, hbefore, -, -, -, hsources⟩ :=
    @files_error _ _ _ _ _ _ .usual _ mixedFiles_isApart mixedFiles_hasClearWays hrun hreport
  exact ⟨e, gs, text, hrun, hreport, before, s, after, hlist, hbefore, hsources⟩

/-- A link in the place of the artifact of `a` leads out of the build directory, to `c`. -/
def linkedFiles : FileSystem := workspaceWith (.link "../c.graphql")

/-- Where a link in the build directory leads to a source, that is overwritten, also when another
source fails. -/
theorem linkedFiles_error : ∃ e gs text,
    @files .usual mixedSources ⟨"", ["build"]⟩ .here linkedFiles = (.error e, gs) ∧ report e = some text ∧
    linkedFiles.IsSound ∧
    (∀ s ∈ mixedSources, linkedFiles.resolve s = .ok (.absolute ("w" :: s.parts))) ∧
    linkedFiles.resolve ⟨"", ["build"]⟩ = .ok (.absolute ["w", "build"]) ∧
    (mixedSources.map fun s => (key linkedFiles .here s).toOption) = [some "a", some "b", some "c"] ∧
    ¬ SameFile linkedFiles gs ["w", "c.graphql"] := by
  have hrun : @files .usual mixedSources ⟨"", ["build"]⟩ .here linkedFiles =
      @filesInto .usual ⟨"", ["build"]⟩ .here mixedSources.tail [("a", exampleDocument)]
        (@savedWith .usual (.link "../c.graphql")) :=
    @filesInto_exampleText _ _ _ _ _ _ .usual (by decide) (by decide) rfl (.inl (by decide))
      (by decide) _
  have hfails : (reported
        (@files .usual mixedSources ⟨"", ["build"]⟩ .here linkedFiles).1).isSome = true ∧
      (@files .usual mixedSources ⟨"", ["build"]⟩ .here linkedFiles).2.node? ["w", "c.graphql"] ≠
        some (.file (Utf8.encode exampleText) 0) := by
    rw [hrun]
    decide
  obtain ⟨e, gs, text, hgs, hreport⟩ := exists_report hfails.1
  refine ⟨e, gs, text, hgs, hreport, isSound_of_nodes (by decide) (by decide), by decide,
    by decide, by decide, fun hsame => ?_⟩
  rw [hgs] at hfails
  have hc : linkedFiles.node? ["w", "c.graphql"] = some (.file (Utf8.encode exampleText) 0) := by
    decide
  exact hfails.2 ((hsame _ _).mpr hc)

end GraphQLDoc.Compile
