import GraphQLDoc.Proofs.Workspace.Failure

/-!
Where a compilation writes. The names of a source below the root, divided at their backslashes, lead
from the build directory to the artifact, and nothing else is written. As long as none of them is a
double dot the artifact is in the build directory.
-/
namespace GraphQLDoc.Compile

open FileSystem

/-- A component that leads to something in the directory where it stands. -/
structure IsOrdinary (name : String) : Prop where
  isPart : Path.isPart name = true
  slash : '/' ∉ name.toList
  dots : name ≠ ".."

variable {fs gs : FileSystem} {root build s : Path} {sources : List Path} {parts : List String}

/-! The names of an artifact. -/

theorem artifact_key (h : ∀ part ∈ parts, '/' ∉ part.toList) :
    artifact build (keyOfParts parts) = build.below (writtenNames parts) :=
  artifact_eq_writtenNames h build

theorem notMem_pieces {name piece : String} {c : Char} (h : c ∉ name.toList)
    (hpiece : piece ∈ pieces name) : c ∉ piece.toList := by
  obtain ⟨cs, hcs, rfl⟩ := List.mem_map.mp hpiece
  rw [String.toList_ofList]
  exact fun hc => h (subset_of_mem_splitOn hcs hc)

/-- What is behind the suffix of an artifact is longer than a component that says where to go. -/
theorem suffixed_isOrdinary {name : String} (h : '/' ∉ name.toList) :
    IsOrdinary (name ++ Artifact.suffix) := by
  have hlength : 13 ≤ (name ++ Artifact.suffix).toList.length := by
    have hsuffix : Artifact.suffix.toList.length = 13 := rfl
    rw [String.toList_append, List.length_append]
    omega
  have hne (short : String) (hshort : short.toList.length ≤ 2) : name ++ Artifact.suffix ≠ short := by
    intro heq
    rw [heq] at hlength
    omega
  refine ⟨?_, ?_, hne ".." (by decide)⟩
  · simp only [Path.isPart, Bool.and_eq_true, bne_iff_ne]
    exact ⟨hne "" (by decide), hne "." (by decide)⟩
  · rw [String.toList_append, List.mem_append]
    exact not_or.mpr ⟨h, by decide⟩

theorem writtenNames_ne_nil (parts : List String) : writtenNames parts ≠ [] := by
  simp [writtenNames]

theorem dropLast_pieces_stem (name : String) :
    (pieces (Path.stem name)).dropLast <+: pieces name := by
  obtain ⟨rest, hrest⟩ := Path.toList_stem_isPrefix name
  rw [pieces, pieces, ← List.map_dropLast, ← hrest]
  exact (dropLast_splitOn_isPrefix _ _ rest).map _

/-- Without the suffix of the last name no more pieces are left than the names have, but for the last
one, to which the suffix of artifacts is added. -/
theorem mem_dropLast_pieces {piece : String}
    (h : piece ∈ ((withoutSuffix parts).flatMap pieces).dropLast) :
    ∃ part ∈ parts, piece ∈ pieces part := by
  have hstem : pieces (Path.stem (parts.getLastD "")) ≠ [] := by
    simp [pieces, List.splitOn_ne_nil]
  rw [withoutSuffix, List.flatMap_append, List.flatMap_singleton,
    List.dropLast_append_of_ne_nil hstem, List.mem_append] at h
  rcases h with h | h
  · obtain ⟨part, hpart, h⟩ := List.mem_flatMap.mp h
    exact ⟨part, List.dropLast_subset _ hpart, h⟩
  · have hpieces := dropLast_pieces_stem (parts.getLastD "")
    cases hlast : parts.getLast? with
    | none =>
      rw [List.getLastD_eq_getLast?, hlast] at h
      cases h
    | some last =>
      rw [List.getLastD_eq_getLast?, hlast] at h hpieces
      exact ⟨last, List.mem_of_getLast? hlast, hpieces.subset h⟩

theorem writtenNames_isOrdinary (hnames : ∀ part ∈ parts, '/' ∉ part.toList)
    (hdots : ∀ part ∈ parts, ".." ∉ pieces part) : ∀ name ∈ writtenNames parts, IsOrdinary name := by
  have hslash : ∀ piece ∈ (withoutSuffix parts).flatMap pieces, '/' ∉ piece.toList := by
    intro piece hpiece
    obtain ⟨part, hpart, hpiece⟩ := List.mem_flatMap.mp hpiece
    exact notMem_pieces (notMem_withoutSuffix hnames part hpart) hpiece
  intro name hname
  rcases List.mem_append.mp hname with hname | hname
  · obtain ⟨hmem, hpart⟩ := List.mem_filter.mp hname
    refine ⟨hpart, hslash name (List.dropLast_subset _ hmem), ?_⟩
    rintro rfl
    obtain ⟨part, hpart, hpiece⟩ := mem_dropLast_pieces hmem
    exact hdots part hpart hpiece
  · obtain rfl := List.mem_singleton.mp hname
    refine suffixed_isOrdinary ?_
    rw [List.getLastD_eq_getLast?]
    cases hlast : ((withoutSuffix parts).flatMap pieces).getLast? with
    | none => exact List.not_mem_nil
    | some last => exact hslash last (List.mem_of_getLast? hlast)

/-! The places that are written. -/

/-- What compiling has changed: directories are made on the way to artifacts, and nothing else but the
artifacts is. -/
structure Reaches (fs : FileSystem) (artifacts : Path → Prop) (gs : FileSystem) : Prop where
  links : KeepsLinks fs gs
  now : gs.now = fs.now
  node : ∀ q, Made fs.now (∃ p, artifacts p ∧ fs.ComesBy p.parent q) (fs.node? q) (gs.node? q) ∨
    ∃ p, artifacts p ∧ fs.LeadsTo p q

theorem Reaches.effect [Machine] {hs : FileSystem} {artifacts : Path → Prop} {p : Path}
    (h : Reaches fs artifacts gs) (hp : artifacts p) (heffect : Effect gs s p hs) :
    Reaches fs artifacts hs where
  links := h.links.trans heffect.links
  now := heffect.now.trans h.now
  node q := by
    have hmade (hmade : Made gs.now (gs.ComesBy p.parent q) (gs.node? q) (hs.node? q))
        (hbefore : Made fs.now (∃ p, artifacts p ∧ fs.ComesBy p.parent q) (fs.node? q)
          (gs.node? q)) :
        Made fs.now (∃ p, artifacts p ∧ fs.ComesBy p.parent q) (fs.node? q) (hs.node? q) :=
      hbefore.trans (h.now ▸ hmade.mono fun hcomes => ⟨p, hp, h.links.comesBy.mp hcomes⟩)
    rcases h.node q with hbefore | hleads
    case inr => exact .inr hleads
    cases heffect with
    | unchanged => exact .inl hbefore
    | made hmakes => exact .inl (hmade (hmakes.adds.node q) hbefore)
    | @saved _ place d _ _ hsaves =>
      by_cases hq : q = place
      · exact .inr ⟨p, hp, h.links.leadsTo.mp (hq ▸ hsaves.leads)⟩
      · exact .inl (hmade (hsaves.node q hq) hbefore)

variable {parts : Path → List String}

/-- The artifact that a source has at the start. -/
def IsArtifactOf (fs : FileSystem) (root build : Path) (sources : List Path) (p : Path) : Prop :=
  ∃ s ∈ sources, ∃ k, key fs root s = .ok k ∧ p = artifact build k

theorem reaches_files [Machine] (hlies : ∀ s ∈ sources, LiesBelow fs root s (parts s)) :
    Reaches fs (IsArtifactOf fs root build sources) (files sources build root fs).2 := by
  refine filesInto_keeps (fun s hs k gs hs' h hk heffect => h.effect ⟨s, hs, k, ?_, rfl⟩ heffect)
    ⟨.refl fs, rfl, fun q => .inl (.same _)⟩
  rw [(hlies s hs).key_of_keepsLinks h.links hk]
  exact (hlies s hs).key_eq

/-- The artifact of a source below the root is found behind the build directory under one ordinary
name or more, and only artifacts are written and directories made on the way to them. So where no
link leads out of the build directory, nothing outside is changed, but for the directories that the
build directory is in. This is so as long as no name has a piece of two dots between backslashes. -/
theorem files_within_build [Machine]
    (hlies : ∀ s ∈ sources, LiesBelow fs root s (parts s) ∧ ∀ part ∈ parts s, ".." ∉ pieces part) :
    (∀ s ∈ sources, ∃ k names, key fs root s = .ok k ∧ artifact build k = build.below names ∧
      names ≠ [] ∧ ∀ name ∈ names, IsOrdinary name) ∧
    Reaches fs (IsArtifactOf fs root build sources) (files sources build root fs).2 ∧
    ∀ b, fs.LeadsTo build b → fs.HasNoLinksBelow b → ∀ q, ¬ IsBelow b q →
      Made fs.now (fs.ComesBy build q) (fs.node? q) ((files sources build root fs).2.node? q) := by
  have hslash (s : Path) (hs : s ∈ sources) : ∀ part ∈ parts s, '/' ∉ part.toList :=
    fun part hpart => ((hlies s hs).1.name part hpart).2
  have hordinary (s : Path) (hs : s ∈ sources) : ∀ name ∈ writtenNames (parts s), IsOrdinary name :=
    writtenNames_isOrdinary (hslash s hs) (hlies s hs).2
  have hreaches : Reaches fs (IsArtifactOf fs root build sources)
      (files sources build root fs).2 := reaches_files fun s hs => (hlies s hs).1
  refine ⟨fun s hs => ?_, hreaches, fun b hb hlinks q hq => ?_⟩
  · exact ⟨_, writtenNames (parts s), (hlies s hs).1.key_eq, artifact_key (hslash s hs),
      writtenNames_ne_nil _, hordinary s hs⟩
  have hbelow (p : Path) (hp : IsArtifactOf fs root build sources p) :
      ∃ names, p = build.below names ∧ names ≠ [] ∧ ∀ name ∈ names, name ≠ ".." := by
    obtain ⟨s, hs, k, hk, rfl⟩ := hp
    obtain rfl := (hlies s hs).1.key_of_keepsLinks (.refl fs) hk
    exact ⟨_, artifact_key (hslash s hs), writtenNames_ne_nil _,
      fun name hname => (hordinary s hs name hname).dots⟩
  rcases hreaches.node q with hmade | ⟨p, hp, hleads⟩
  · refine hmade.mono ?_
    rintro ⟨p, hp, hcomes⟩
    obtain ⟨names, rfl, -, hdots⟩ := hbelow p hp
    rcases hcomes.of_parent.of_below hdots hb (hlinks.areLinkFree _) with hcomes | ⟨before, -, rfl⟩
    · exact hcomes
    · by_cases hnil : before = []
      · rw [hnil, List.append_nil]
        exact hb.comesBy
      · exact absurd ⟨before, hnil, rfl⟩ hq
  · obtain ⟨names, rfl, hne, hdots⟩ := hbelow p hp
    obtain ⟨b', hb', rfl⟩ := hleads.of_below hdots
      fun b' hb' => (hb'.unique hb) ▸ hlinks.areLinkFree _
    obtain rfl := hb'.unique hb
    exact absurd ⟨names, hne, rfl⟩ hq

/-- A workspace `w` with one source. -/
def singleFile (name : String) : FileSystem where
  nodes := [(["w"], .directory 0), (["w", name], .file (Utf8.encode exampleText) 0)]
  workingDirectory := ["w"]
  now := 1

theorem singleFile_hasNoLinks (name : String) : (singleFile name).HasNoLinks :=
  hasNoLinks_of_nodes (by simp [singleFile])

theorem singleFile_liesBelow (name : String)
    (hroot : (singleFile name).resolve .here = .ok (.absolute ["w"]))
    (hreal : (singleFile name).resolve ⟨"", [name]⟩ = .ok (.absolute ["w", name]))
    (hname : Path.isPart name = true ∧ '/' ∉ name.toList) :
    LiesBelow (singleFile name) .here ⟨"", [name]⟩ [name] where
  real := ⟨_, _, hreal, hroot, by simp [Path.behind?, Path.absolute]⟩
  nonempty := List.cons_ne_nil _ _
  name part hpart := (List.mem_singleton.mp hpart) ▸ hname

theorem singleFile_leadsTo (name : String) :
    (singleFile name).LeadsTo ⟨"", ["build"]⟩ ["w", "build"] :=
  (singleFile_hasNoLinks name).leadsTo_iff.mpr ⟨rfl, rfl⟩

/-- The name of a source may have a backslash. -/
theorem backslash_within_build :
    (∃ k names, key (singleFile "a\\b.x.graphql") .here ⟨"", ["a\\b.x.graphql"]⟩ = .ok k ∧
      artifact ⟨"", ["build"]⟩ k = Path.below ⟨"", ["build"]⟩ names ∧ names ≠ [] ∧
      ∀ name ∈ names, IsOrdinary name) ∧
    ∀ q, ¬ IsBelow ["w", "build"] q → Made 1
      ((singleFile "a\\b.x.graphql").ComesBy ⟨"", ["build"]⟩ q)
      ((singleFile "a\\b.x.graphql").node? q)
      ((@files .usual [⟨"", ["a\\b.x.graphql"]⟩] ⟨"", ["build"]⟩ .here
        (singleFile "a\\b.x.graphql")).2.node? q) := by
  have hlies := singleFile_liesBelow "a\\b.x.graphql" (by decide) (by decide)
    (by decide)
  have hdots : ∀ part ∈ ["a\\b.x.graphql"], ".." ∉ pieces part := by decide
  obtain ⟨hnames, -, hnodes⟩ := @files_within_build _ .here ⟨"", ["build"]⟩
    [⟨"", ["a\\b.x.graphql"]⟩] Path.parts .usual (List.forall_mem_singleton.mpr ⟨hlies, hdots⟩)
  exact ⟨hnames _ (List.mem_singleton_self _), hnodes _ (singleFile_leadsTo _)
    fun q _ => singleFile_hasNoLinks _ q⟩

/-- Two dots between backslashes lead out of the build directory. -/
theorem dots_leave_build : ∃ docs gs,
    LiesBelow (singleFile "..\\x.graphql") .here ⟨"", ["..\\x.graphql"]⟩ ["..\\x.graphql"] ∧
    key (singleFile "..\\x.graphql") .here ⟨"", ["..\\x.graphql"]⟩ = .ok "../x" ∧
    artifact ⟨"", ["build"]⟩ "../x" = ⟨"", ["build", "..", "x.graphql.json"]⟩ ∧
    @files .usual [⟨"", ["..\\x.graphql"]⟩] ⟨"", ["build"]⟩ .here (singleFile "..\\x.graphql") =
      (.ok docs, gs) ∧
    (singleFile "..\\x.graphql").LeadsTo ⟨"", ["build"]⟩ ["w", "build"] ∧
    ¬ IsBelow ["w", "build"] ["w", "x.graphql.json"] ∧
    (singleFile "..\\x.graphql").node? ["w", "x.graphql.json"] = none ∧
    gs.node? ["w", "x.graphql.json"] = some (.file (Artifact.bytesOf exampleDocument) 1) := by
  have hlies := singleFile_liesBelow "..\\x.graphql" (by decide) (by decide)
    (by decide)
  have hkey : keyOfParts ["..\\x.graphql"] = "../x" := by decide
  have hrun : @files .usual [⟨"", ["..\\x.graphql"]⟩] ⟨"", ["build"]⟩ .here
        (singleFile "..\\x.graphql") =
      @filesInto .usual ⟨"", ["build"]⟩ .here [] [("../x", exampleDocument)]
        (@Artifact.save .usual exampleDocument (artifact ⟨"", ["build"]⟩ "../x")
          (singleFile "..\\x.graphql")).2 :=
    @filesInto_exampleText _ _ _ _ _ _ .usual (by decide) (by decide) rfl (.inl (by decide))
      (by decide) []
  exact ⟨_, _, hlies, hkey ▸ hlies.key_eq, by decide, hrun, singleFile_leadsTo _,
    by decide, by decide, by decide⟩

end GraphQLDoc.Compile
