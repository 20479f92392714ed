import GraphQLDoc.Proofs.Workspace.LongNames

/-!
Compilations that go through whatever the artifacts hold. Where all sources can be parsed and all
artifacts can be written, each source is compiled in its turn, from its artifact or anew, and in the
end the artifacts say the documents that are handed out.
-/
namespace GraphQLDoc.Compile

open FileSystem

variable {start fs gs : FileSystem} {root build s t : Path} {sources all more : Set Path}
  {before : List Path} {done docs : List (String × Document)} {k : String}
  {b r place : List String} {d : Document}

section Machine

variable [Machine]

/-- Sources that can be compiled. -/
structure CanCompile (fs : FileSystem) (root build : Path) (sources : Set Path) : Prop
    extends IsApart fs root build sources where
  ways : HasClearWays fs root build sources
  /-- Each source is below the root. -/
  key : ∀ s ∈ sources, ∃ k, key fs root s = .ok k
  /-- Each source has a document that is not nested too deeply for an artifact. -/
  parses : ∀ s ∈ sources, ∃ d, parseFile fs s = .ok d ∧ d.nesting ≤ maxNesting
  /-- Nothing but a file is in the place of an artifact, and its directories can be made. -/
  creatable : ∀ s ∈ sources, ∀ k, Compile.key fs root s = .ok k → ∀ d : Document,
    d.nesting ≤ maxNesting → ∃ gs, Artifact.save d (artifact build k) fs = (.ok (), gs)
  /-- The containers of an artifact are not nested too deeply to be read. -/
  shallow : ∀ s ∈ sources, ∀ k, Compile.key fs root s = .ok k → ∀ q bytes time,
    fs.LeadsTo (artifact build k) q → fs.node? q = some (.file bytes time) →
      ∀ text container, textOfFile bytes = .ok text →
        Artifact.deserialize text ≠ .error (.json (.tooDeep container))
  /-- Nor are those of an artifact that was saved. -/
  calls : Artifact.maxDepth ≤ Machine.calls

theorem CanCompile.mono (h : CanCompile fs root build sources) (hmore : more ⊆ sources) :
    CanCompile fs root build more where
  toIsApart := h.toIsApart.mono hmore
  ways s hs t ht := h.ways s (hmore hs) t (hmore ht)
  key s hs := h.key s (hmore hs)
  parses s hs := h.parses s (hmore hs)
  creatable s hs := h.creatable s (hmore hs)
  shallow s hs := h.shallow s (hmore hs)
  calls := h.calls

namespace IsBuilt

section Built

variable (h : IsBuilt start root build sources fs)
include h

/-- Where something else can be made a directory nothing stands, or a directory does. -/
theorem isClear {saved : FileSystem} {new : Prop} {now : Int}
    (hplace : ∀ t l, HasKey start root sources t l → ¬ start.LeadsTo (artifact build l) q)
    (hmade : Made now new (start.node? q) (saved.node? q)) (hdirectory : saved.IsDirectoryAt q) :
    fs.node? q = none ∨ fs.IsDirectoryAt q := by
  obtain ⟨time, htime⟩ := hdirectory
  rw [htime] at hmade
  rcases h.node q with hnode | ⟨-, t, l, -, hl, hleads, -⟩
  · generalize start.node? q = n at hmade hnode
    unfold IsDirectoryAt
    generalize fs.node? q = n' at hnode
    cases hmade <;> cases hnode <;> simp
  · exact absurd hleads (hplace t l hl)

/-- Nothing but a file stands where nothing but a file did, unless a directory was made there. -/
theorem isFree
    (hplace : ∀ t l, HasKey start root sources t l → ¬ start.LeadsTo (artifact build l) q)
    (hway : ¬ IsArtifactWay start root build sources q)
    (hfree : ∀ n, start.node? q = some n → ∃ bytes time, n = .file bytes time) {n : FileNode}
    (hn : fs.node? q = some n) : ∃ bytes time, n = .file bytes time := by
  rcases h.node q with hnode | ⟨-, t, l, -, hl, hleads, -⟩
  · rw [hn] at hnode
    generalize hm : start.node? q = m at hnode
    cases hnode with
    | same => exact hfree _ hm
    | touched =>
      obtain ⟨_, _, hfile⟩ := hfree _ hm
      cases hfile
    | made hq => exact absurd hq hway
  · exact absurd hleads (hplace t l hl)

/-- A source still says what it said, since no artifact was written in its place. -/
theorem parseFile_of_start (hapart : IsApart start root build all) (hall : sources ⊆ all)
    (hs : s ∈ all) (hparse : parseFile start s = .ok d) : parseFile fs s = .ok d := by
  obtain ⟨r, bytes, time, hfind, hdocument⟩ := parseFile_eq_ok_iff.mp hparse
  have hr : start.LeadsTo s r := find_leadsTo hfind (.inl rfl)
  have hsame : SameFile start fs r := h.sameFile fun t k hk hleads =>
    hapart.source_ne hs hr ⟨⟨t, hk.mono hall⟩, hleads⟩ rfl
  obtain ⟨n, hn, hnode⟩ := find_grows h.grows hfind
  obtain rfl := Option.some.inj (hnode.symm.trans ((hsame bytes time).mpr (find_isIn hfind)))
  exact parseFile_eq_ok_iff.mpr ⟨r, bytes, time, hn, hdocument⟩

/-- The key of a source that is there stays. -/
theorem key_of_start (hstart : start.IsSound) (hparse : parseFile fs s = .ok d)
    (hk : key start root s = .ok k) : key fs root s = .ok k := by
  obtain ⟨r, bytes, time, hfind, -⟩ := parseFile_eq_ok_iff.mp hparse
  obtain ⟨p, q, parts, hp, hq, hparts, -, -, -⟩ := exists_parts_of_key hk
  have hr : fs.LeadsTo s r := find_leadsTo hfind (.inl rfl)
  obtain rfl := Except.ok.inj
    ((hstart.resolve_of_leadsTo (h.links.leadsTo.mp hr)).symm.trans hp)
  -- the root stands in front of the source, so that no link is followed on the way to it
  obtain ⟨anchor, front⟩ := q
  obtain ⟨rfl, rfl⟩ := Path.mk.inj (Path.eq_of_behind? hparts)
  have hreal : fs.IsReal front :=
    (h.sound.isReal (find_isIn hfind) nofun).prefix_of (List.prefix_append _ _)
  obtain ⟨hnull, hroot, -⟩ := resolve_eq_ok_iff.mp hq
  have hq' : fs.resolve root = .ok (.absolute front) :=
    resolve_eq_ok_iff.mpr ⟨hnull, (h.links.realPath_eq root).trans hroot, hreal.stat_ne⟩
  unfold key at hk ⊢
  rw [h.sound.resolve_of_leadsTo hr, hq']
  rw [hp, hq] at hk
  exact hk

end Built

end IsBuilt

omit [Machine] in
/-- The place of an artifact that can be saved is on no way of its own directories. -/
theorem IsApart.not_comesBy_self (hapart : IsApart start root build sources)
    (hk : HasKey start root sources s k) {bytes : List UInt8}
    (hsaves : Saves start gs (artifact build k) place bytes) :
    ¬ start.ComesBy (artifact build k).parent place := by
  obtain ⟨b, names, hb, hne, hdots, hlinks, hpath, rfl⟩ :=
    hapart.artifact_below ⟨⟨s, hk⟩, hsaves.leads⟩
  obtain ⟨front, last, rfl⟩ := List.eq_nil_or_concat' names |>.resolve_left hne
  have hsound := hsaves.sound hapart.sound
  have hfound := hsaves.found
  rw [hpath] at hfound
  obtain ⟨b', hb'⟩ := exists_isDirectory hsound hne hfound
  intro hcomes
  rw [hpath, Path.parent_below_concat] at hcomes
  have hfront : start.AreLinkFree b front := fun more hmore hle =>
    hlinks more hmore (hle.trans (List.prefix_append _ _))
  rcases hcomes.of_below (fun name hname => hdots name (List.mem_append_left _ hname)) hb hfront with
    hcomes | ⟨more, hmore, heq⟩
  · -- then the artifact would be a directory in front of the build directory
    obtain ⟨time, hfind⟩ := hb'
    obtain ⟨n, hn, hend⟩ := find_comesBy hsound hfind (hsaves.links.comesBy.mpr hcomes)
    obtain rfl := Option.some.inj (hn.symm.trans hsaves.written)
    have hplace := hend _ _ rfl
    have hleads : start.LeadsTo build b' :=
      hsaves.links.leadsTo.mp (find_leadsTo hfind (.inl rfl))
    rw [← hb.unique hleads] at hplace
    exact absurd (List.append_right_eq_self.mp hplace) hne
  · exact below_ne hmore heq.symm

/-- An artifact that can be saved at the start can be when artifacts of other sources were. -/
theorem IsBuilt.exists_save (h : IsBuilt start root build sources fs)
    (hcan : CanCompile start root build all) (hall : sources ⊆ all)
    (hk : HasKey start root all s k) (hother : ∀ t l, HasKey start root sources t l → l ≠ k)
    (hnesting : d.nesting ≤ maxNesting) : ∃ gs, Artifact.save d (artifact build k) fs = (.ok (), gs) := by
  rcases h.begun with rfl | ⟨b', hb'⟩
  · exact hcan.creatable s hk.1 k hk.2 d hnesting
  obtain ⟨saved, hsave⟩ := hcan.creatable s hk.1 k hk.2 d hnesting
  obtain ⟨-, place, hsaves⟩ := Artifact.exists_saves hsave
  have hself := hcan.toIsApart.not_comesBy_self hk hsaves
  have hsound := hsaves.sound hcan.sound
  obtain ⟨b, names, hb, hne, hdots, hlinks, hpath, rfl⟩ :=
    hcan.toIsApart.artifact_below ⟨⟨s, hk⟩, hsaves.leads⟩
  obtain ⟨time, hfind⟩ := id hb'
  obtain rfl := hb.unique (h.leadsTo hfind)
  obtain ⟨front, last, rfl⟩ := List.eq_nil_or_concat' names |>.resolve_left hne
  have hparent : (artifact build k).parent = build.below front := by
    rw [hpath, Path.parent_below_concat]
  have hway (more : List String) (hmore : more <+: front) :
      start.ComesBy (artifact build k).parent (b ++ more) := by
    rw [hparent]
    exact .below (fun name hname => hdots name (List.mem_append_left _ hname)) hb
      (fun names hne hnames => hlinks names hne (hnames.trans (List.prefix_append _ _))) hmore
  have hasked := refusal?_of_find hsaves.found
  have hcalls := Artifact.exists_front_of_save hcan.sound hb
    (fun name hname => hdots name (List.mem_append_left _ hname))
    (fun more hne hmore => hlinks more hne (hmore.trans (List.prefix_append _ _))) hparent hsave
  rw [hpath] at hasked hparent hself ⊢
  rw [hparent] at hself
  refine Artifact.exists_save h.sound hb' (fun name hname =>
    hsound.isEntryName hsaves.written (List.mem_append_right _ hname)) hasked
    (fun more hmore => ?_) (fun n hn => ?_) (fun hcomes => hself (h.links.comesBy.mp hcomes)) ?_
    hnesting
  · -- a directory on the way is where a directory is when the artifact is saved at the start
    have hdirectory : saved.IsDirectoryAt (b ++ more) := by
      obtain ⟨rest, hrest⟩ := hmore
      have hwritten := hsaves.written
      rw [← hrest, List.append_assoc, ← List.append_assoc] at hwritten
      exact hsound.front (by simp) hwritten
    refine h.isClear (fun t l hl hleads => ?_) (hsaves.node _ (below_ne hmore)) hdirectory
    exact hcan.ways t (hall hl.1) s hk.1 l k hl.2 hk.2 (hother t l hl) _ hleads (hway more hmore)
  · refine h.isFree (fun t l hl hleads => ?_) ?_ hsaves.before hn
    · have hsame := hcan.toIsApart.artifact_unique ⟨⟨s, hk⟩, hsaves.leads⟩
        ⟨⟨t, hl.mono hall⟩, hleads⟩
      exact absurd hsame.symm (hother t l hl)
    · rintro ⟨t, l, hl, hcomes⟩
      exact hcan.ways s hk.1 t (hall hl.1) k l hk.2 hl.2 (hother t l hl).symm _ hsaves.leads hcomes
  · obtain ⟨there, rest, heq, hthere, hlength⟩ := hcalls
    refine ⟨there, rest, heq, ?_, hlength⟩
    rcases hthere with rfl | hthere
    · rw [List.append_nil]
      exact hb'.isDirectoryAt
    · exact h.grows.isDirectoryAt hthere

/-- An artifact that was not written is not nested too deeply to be read. -/
theorem IsBuilt.fault?_eq_none (h : IsBuilt start root build sources fs)
    (hcan : CanCompile start root build all) (hall : sources ⊆ all)
    (hk : HasKey start root all s k) (hother : ∀ t l, HasKey start root sources t l → l ≠ k)
    {e : ArtifactFileError} (hload : Artifact.load fs (artifact build k) = .error e) :
    e.fault? = none := by
  by_contra hfault
  obtain ⟨q, bytes, time, text, container, hfind, htext, hdeep⟩ :=
    Artifact.exists_of_load_fault hload hfault
  have hleads : start.LeadsTo (artifact build k) q := h.leadsTo hfind
  have hsame : SameFile start fs q := h.sameFile fun t l hl hl' =>
    hother t l hl (hcan.toIsApart.artifact_unique ⟨⟨t, hl.mono hall⟩, hl'⟩ ⟨⟨s, hk⟩, hleads⟩)
  exact hcan.shallow s hk.1 k hk.2 q bytes time hleads ((hsame _ _).mp (find_isIn hfind)) text
    container htext hdeep

/-- The turn of a source goes through. -/
theorem Progress.exists_turn (h : Progress start root build before done fs)
    (hcan : CanCompile start root build {t | t ∈ before ++ [s]}) :
    ∃ docs gs, filesInto build root [s] done fs = (.ok docs, gs) := by
  have hmore : {t | t ∈ before} ⊆ {t | t ∈ before ++ [s]} :=
    fun t ht => List.mem_append_left [s] ht
  have hs : s ∈ before ++ [s] := List.mem_append_right _ (List.mem_singleton_self s)
  obtain ⟨k, hk⟩ := hcan.key s hs
  obtain ⟨d, hd, hnesting⟩ := hcan.parses s hs
  have hparse := h.parseFile_of_start hcan.toIsApart hmore hs hd
  have hkey := h.key_of_start hcan.sound hparse hk
  rw [filesInto, hkey]
  dsimp only
  cases hdone : Entries.get? k done with
  | some d' => exact ⟨done, fs, rfl⟩
  | none =>
    suffices hfile : ∃ d' gs, file s (artifact build k) fs = (.ok d', gs) by
      obtain ⟨d', gs, hfile⟩ := hfile
      simp only [hfile, Option.isSome_none, Bool.false_eq_true, if_false]
      exact ⟨_, gs, rfl⟩
    have hother (t : Path) (l : String) (hl : HasKey start root {t | t ∈ before} t l) : l ≠ k := by
      rintro rfl
      obtain ⟨l', d', hl', hd'⟩ := h.keys t hl.1
      obtain rfl := Except.ok.inj (hl.2.symm.trans hl')
      rw [hdone] at hd'
      cases hd'
    obtain ⟨gs, hsave⟩ := h.exists_save hcan hmore ⟨hs, hk⟩ hother hnesting
    obtain ⟨-, place, hsaves⟩ := Artifact.exists_saves hsave
    obtain ⟨r, bytes, time, hfind, -⟩ := parseFile_eq_ok_iff.mp hparse
    obtain ⟨fresh, hfresh⟩ :=
      exists_isFresh (hsaves.hasShortNames h.sound).stat_ne (stat_ne_of_find hfind)
    cases fresh with
    | false => exact ⟨d, gs, file_of_parse (.inl hfresh) hparse hsave⟩
    | true =>
      cases hload : Artifact.load fs (artifact build k) with
      | ok d' => exact ⟨d', fs, by rw [file, hfresh, hload]⟩
      | error e => exact ⟨d, gs, file_of_parse (.inr ⟨hfresh, e, hload,
        h.fault?_eq_none hcan hmore ⟨hs, hk⟩ hother hload⟩) hparse hsave⟩

/-- All turns go through. -/
theorem files_ok {list : List Path} (hcan : CanCompile fs root build {s | s ∈ list}) :
    ∃ docs gs, files list build root fs = (.ok docs, gs) := by
  induction list using List.reverseRecOn with
  | nil => exact ⟨[], fs, rfl⟩
  | append_singleton before s ih =>
    have hmore : {t | t ∈ before} ⊆ {t | t ∈ before ++ [s]} :=
      fun t ht => List.mem_append_left [s] ht
    obtain ⟨done, mid, hrun⟩ := ih (hcan.mono hmore)
    have hprogress := files_progress (hcan.toIsApart.mono hmore) hrun
    obtain ⟨docs, gs, hturn⟩ := hprogress.exists_turn hcan
    exact ⟨docs, gs, (files_concat hrun).trans hturn⟩

/-- Whatever the artifacts hold, all sources are compiled. Each document that is handed out is that
of the first source with its key in its turn, when the files of the source and of the artifact still
were what they were at the start, and in the end its artifact says it. -/
theorem files_heal {list : List Path} (hcan : CanCompile fs root build {s | s ∈ list}) :
    ∃ docs gs, files list build root fs = (.ok docs, gs) ∧
      (∀ s ∈ list, ∃ k d, key fs root s = .ok k ∧ Entries.get? k docs = some d) ∧
      ∀ k d, Entries.get? k docs = some d → Artifact.load gs (artifact build k) = .ok d ∧
        ∃ front s, front ++ [s] <+: list ∧ key fs root s = .ok k ∧
          (∀ t ∈ front, key fs root t ≠ .ok k) ∧
          HasDocument (files front build root fs).2 s (artifact build k) d ∧
          ∀ q, fs.LeadsTo s q ∨ fs.LeadsTo (artifact build k) q →
            SameFile fs (files front build root fs).2 q := by
  obtain ⟨docs, gs, hrun⟩ := files_ok hcan
  have hprogress := files_progress hcan.toIsApart hrun
  refine ⟨docs, gs, hrun, hprogress.keys, fun k d hd => ?_⟩
  obtain ⟨front, s, hfrom, hheld⟩ := hprogress.entry k d hd
  refine ⟨(hheld hcan.calls).load, front, s, hfrom.among, hfrom.key, hfrom.first, hfrom.document, ?_⟩
  have hs : s ∈ list := mem_of_among hfrom.among
  have hmore : {t | t ∈ front} ⊆ {t | t ∈ list} :=
    fun t ht => hfrom.among.subset (List.mem_append_left _ ht)
  obtain ⟨done, mid, hfront⟩ := files_ok (hcan.mono hmore)
  have hmid := files_progress (hcan.toIsApart.mono hmore) hfront
  rw [hfront]
  rintro q (hq | hq)
  · exact hmid.sameFile fun t l hl hleads =>
      hcan.toIsApart.source_ne hs hq ⟨⟨t, hl.mono hmore⟩, hleads⟩ rfl
  · refine hmid.sameFile fun t l hl hleads => ?_
    have hkl := hcan.toIsApart.artifact_unique ⟨⟨s, hs, hfrom.key⟩, hq⟩ ⟨⟨t, hl.mono hmore⟩, hleads⟩
    exact hfrom.first t hl.1 (hkl ▸ hl.2)

end Machine

/-! Examples. -/

/-- The sources that are not broken. -/
def healedSources : List Path := [⟨"", ["a.graphql"]⟩, ⟨"", ["c.graphql"]⟩]

theorem mixedFiles_creatable [Machine] {k : String} (hk : k = "a" ∨ k = "c")
    (hd : d.nesting ≤ maxNesting) :
    ∃ gs, Artifact.save d (artifact ⟨"", ["build"]⟩ k) mixedFiles = (.ok (), gs) := by
  have hpath : artifact ⟨"", ["build"]⟩ k =
      Path.below ⟨"", ["build"]⟩ ([] ++ [k ++ Artifact.suffix]) := by
    rcases hk with rfl | rfl <;> decide
  have hdirectory : mixedFiles.IsDirectory ⟨"", ["build"]⟩ ["w", "build"] := by
    obtain ⟨b, time, hfind⟩ := isDirectory_iff.mp
      (show mixedFiles.isDirectory ⟨"", ["build"]⟩ = true by decide)
    have hb : b = mixedFiles.placeOf ⟨"", ["build"]⟩ :=
      (mixedFiles_hasNoLinks.leadsTo_iff.mp (find_leadsTo hfind (.inl rfl))).2
    have hplace : mixedFiles.placeOf ⟨"", ["build"]⟩ = ["w", "build"] := by decide
    exact ⟨time, hplace ▸ hb ▸ hfind⟩
  have hnode : mixedFiles.node? ["w", "build", "a" ++ Artifact.suffix] = some (.file [0x7b] 1) ∧
      mixedFiles.node? ["w", "build", "c" ++ Artifact.suffix] = none := by decide
  rw [hpath]
  refine Artifact.exists_save mixedFiles_isApart.sound hdirectory ?_ ?_ ?_ ?_ ?_
    ⟨[], [], rfl, hdirectory.isDirectoryAt, Nat.zero_le _⟩ hd
  · rcases hk with rfl | rfl <;> decide
  · rcases hk with rfl | rfl <;> decide
  · intro before hbefore
    rw [List.prefix_nil.mp hbefore]
    exact .inr hdirectory.isDirectoryAt
  · intro n hn
    rcases hk with rfl | rfl
    · exact ⟨_, _, Option.some.inj (hn.symm.trans hnode.1)⟩
    · cases hn.symm.trans hnode.2
  · intro hcomes
    obtain ⟨before, hbefore, heq⟩ := mixedFiles_hasNoLinks.comesBy_iff.mp hcomes
    have hstart : mixedFiles.start (Path.below ⟨"", ["build"]⟩ []) = ["w"] := by decide
    have hfront : before ⊆ ["build"] := hbefore.subset
    rw [hstart, goFrom_eq_append fun h => absurd (hfront h) (by decide)] at heq
    have hlength := congrArg List.length heq
    have hle : before.length ≤ 1 := hbefore.length_le
    simp at hlength
    omega

theorem mixedFiles_shallow {k : String} (hk : k = "a" ∨ k = "c") {bytes : List UInt8} {time : Int}
    {q : List String} (hq : mixedFiles.LeadsTo (artifact ⟨"", ["build"]⟩ k) q)
    (hfile : mixedFiles.node? q = some (.file bytes time)) {text : List Char}
    (htext : textOfFile bytes = .ok text) (container : String) :
    @Artifact.deserialize .usual text ≠ .error (.json (.tooDeep container)) := by
  obtain rfl := (mixedFiles_hasNoLinks.leadsTo_iff.mp hq).2
  have hplaces : mixedFiles.node? (mixedFiles.placeOf (artifact ⟨"", ["build"]⟩ "a")) =
      some (.file [0x7b] 1) ∧
      mixedFiles.node? (mixedFiles.placeOf (artifact ⟨"", ["build"]⟩ "c")) = none := by decide
  rcases hk with rfl | rfl
  · obtain ⟨rfl, -⟩ := FileNode.file.inj (Option.some.inj (hplaces.1.symm.trans hfile))
    have hbrace : textOfFile [0x7b] = .ok ['{'] := by decide
    obtain rfl := Except.ok.inj (hbrace.symm.trans htext)
    have hover : isPassedOver ((@Artifact.deserialize .usual ['{']).mapError .content) = true := by
      decide
    intro hdeep
    rw [hdeep] at hover
    cases hover
  · cases hplaces.2.symm.trans hfile

theorem mixedFiles_canCompile :
    @CanCompile .usual mixedFiles .here (⟨"", ["build"]⟩) {s | s ∈ healedSources} := by
  have hmore : {s | s ∈ healedSources} ⊆ {s | s ∈ mixedSources} :=
    fun s hs => (by decide : healedSources ⊆ mixedSources) hs
  have hkeys : ∀ s ∈ healedSources, ∃ k ∈ ["a", "c"],
      (key mixedFiles .here s).toOption = some k := by decide
  have hreads : ∀ s ∈ healedSources, mixedFiles.read s = .ok (Utf8.encode exampleText) := by
    decide
  have hkey {s : Path} {k : String} (hs : s ∈ healedSources) (hk : key mixedFiles .here s = .ok k) :
      k = "a" ∨ k = "c" := by
    obtain ⟨l, hl, hl'⟩ := hkeys s hs
    obtain rfl := Except.ok.inj (hk.symm.trans (eq_ok_of_toOption hl'))
    simpa using hl
  let := Machine.usual
  exact {
    toIsApart := mixedFiles_isApart.mono hmore
    ways := fun s hs t ht => mixedFiles_hasClearWays s (hmore hs) t (hmore ht)
    key := fun s hs => (hkeys s hs).imp fun _ hk => eq_ok_of_toOption hk.2
    parses := fun s hs => ⟨_, @parseFile_exampleText _ _ .usual (hreads s hs), by decide⟩
    creatable := fun s hs k hk d hd => @mixedFiles_creatable _ .usual _ (hkey hs hk) hd
    shallow := fun s hs k hk _ _ _ hq hfile _ container htext =>
      mixedFiles_shallow (hkey hs hk) hq hfile htext container
    calls := by decide }

/-- The artifact that could not be read is written anew. -/
theorem mixedFiles_heal : ∃ docs gs d,
    @files .usual healedSources ⟨"", ["build"]⟩ .here mixedFiles = (.ok docs, gs) ∧
      Entries.get? "a" docs = some d ∧
      (@Artifact.load .usual mixedFiles (artifact ⟨"", ["build"]⟩ "a")).toOption.isNone = true ∧
      @Artifact.load .usual gs (artifact ⟨"", ["build"]⟩ "a") = .ok d := by
  obtain ⟨docs, gs, hrun, hkeys, hentries⟩ := @files_heal _ _ _ .usual _ mixedFiles_canCompile
  obtain ⟨k, d, hk, hd⟩ := hkeys ⟨"", ["a.graphql"]⟩ (by decide)
  have hkey : (key mixedFiles .here ⟨"", ["a.graphql"]⟩).toOption = some "a" := by decide
  obtain rfl := Except.ok.inj (hk.symm.trans (eq_ok_of_toOption hkey))
  exact ⟨docs, gs, d, hrun, hd, by decide, (hentries "a" d hd).1⟩

/-- Two sources where the second stands in the place of the artifact of the first. -/
def insideSources : List Path := [⟨"", ["a.graphql"]⟩, ⟨"", ["build", "a.graphql.json"]⟩]

def insideFiles : FileSystem := workspaceWith (.file (Utf8.encode exampleText) 0)

/-- The first source overwrites the second. -/
theorem insideFiles_fails :
    (∀ s ∈ insideSources, @parseFile .usual insideFiles s = .ok exampleDocument) ∧
      (insideSources.map fun s => (key insideFiles .here s).toOption) =
        [some "a", some "build/a.graphql"] ∧
      ∃ e gs text, @files .usual insideSources ⟨"", ["build"]⟩ .here insideFiles = (.error e, gs) ∧
        report e = some text := by
  have hreads : ∀ s ∈ insideSources, insideFiles.read s = .ok (Utf8.encode exampleText) := by
    decide
  have hrun : @files .usual insideSources ⟨"", ["build"]⟩ .here insideFiles =
      @filesInto .usual ⟨"", ["build"]⟩ .here insideSources.tail [("a", exampleDocument)]
        (@savedWith .usual (.file (Utf8.encode exampleText) 0)) :=
    @filesInto_exampleText _ _ _ _ _ _ .usual (by decide) (by decide) rfl (.inl (by decide))
      (by decide) _
  refine ⟨fun s hs => @parseFile_exampleText _ _ .usual (hreads s hs), by decide, exists_report ?_⟩
  rw [hrun]
  decide +kernel

/-- Two sources where the artifact of the first stands in the place of a directory for the second. -/
def crossedSources : List Path := [⟨"", ["a.graphql"]⟩, ⟨"", ["a.graphql.json", "b.graphql"]⟩]

def crossedFiles : FileSystem where
  nodes := [(["w"], .directory 0), (["w", "a.graphql"], .file (Utf8.encode exampleText) 0),
    (["w", "a.graphql.json"], .directory 0),
    (["w", "a.graphql.json", "b.graphql"], .file (Utf8.encode exampleText) 0)]
  workingDirectory := ["w"]
  now := 2

/-- What is left when the artifact of the first source is saved. -/
def crossedSaved : FileSystem :=
  (@Artifact.save .usual exampleDocument (artifact ⟨"", ["build"]⟩ "a") crossedFiles).2

/-- The artifact of the second source cannot be written behind that of the first. -/
theorem crossedFiles_fails :
    (∀ s ∈ crossedSources, @parseFile .usual crossedFiles s = .ok exampleDocument) ∧
      (crossedSources.map fun s => (key crossedFiles .here s).toOption) =
        [some "a", some "a.graphql.json/b"] ∧
      ∃ e gs, @files .usual crossedSources ⟨"", ["build"]⟩ .here crossedFiles = (.error (.fault e), gs) := by
  have hreads : ∀ s ∈ crossedSources, crossedFiles.read s = .ok (Utf8.encode exampleText) := by
    decide
  have hfirst : @files .usual crossedSources ⟨"", ["build"]⟩ .here crossedFiles =
      @filesInto .usual ⟨"", ["build"]⟩ .here crossedSources.tail [("a", exampleDocument)] crossedSaved :=
    @filesInto_exampleText _ _ _ _ _ _ .usual (by decide) (by decide) rfl (.inl (by decide))
      (by decide) _
  have hkey : (key crossedSaved .here ⟨"", ["a.graphql.json", "b.graphql"]⟩).toOption =
      some "a.graphql.json/b" := by decide
  have hstale : isFresh crossedSaved ⟨"", ["a.graphql.json", "b.graphql"]⟩
      (artifact ⟨"", ["build"]⟩ "a.graphql.json/b") = .ok false := by decide
  have hsave : (@Artifact.save .usual exampleDocument (artifact ⟨"", ["build"]⟩ "a.graphql.json/b")
      crossedSaved).1.toOption = none := by decide
  obtain ⟨f, hf⟩ := exists_error_of_toOption hsave
  have hsecond := @file_of_save_error _ _ _ _ _ .usual (.inl hstale)
    (@parseFile_exampleText _ _ .usual (by decide)) _ (Prod.ext hf rfl)
  exact ⟨fun s hs => @parseFile_exampleText _ _ .usual (hreads s hs), by decide, _, _,
    hfirst.trans (@filesInto_of_error _ _ _ _ _ _ _ .usual _ (eq_ok_of_toOption hkey) rfl hsecond [])⟩

/-- Two sources whose artifacts are one file, since a directory is a link to another one. -/
def sharedSources : List Path := [⟨"", ["x", "a.graphql"]⟩, ⟨"", ["y", "a.graphql"]⟩]

/-- The artifact is newer than the first source and older than the second. -/
def sharedFiles : FileSystem where
  nodes := [(["w"], .directory 0), (["w", "x"], .directory 0),
    (["w", "x", "a.graphql"], .file (Utf8.encode exampleText) 0), (["w", "y"], .directory 0),
    (["w", "y", "a.graphql"], .file (Utf8.encode exampleText) 2), (["w", "build"], .directory 0),
    (["w", "build", "x"], .link "y"), (["w", "build", "y"], .directory 0),
    (["w", "build", "y", "a.graphql.json"], .file (Artifact.bytesOf ⟨[]⟩) 1)]
  workingDirectory := ["w"]
  now := 3

/-- What is left when the artifact of the second source is saved. -/
def sharedSaved : FileSystem :=
  (@Artifact.save .usual exampleDocument (artifact ⟨"", ["build"]⟩ "y/a") sharedFiles).2

/-- The artifact of the first source is overwritten by that of the second. -/
theorem sharedFiles_differs :
    (∀ s ∈ sharedSources, @parseFile .usual sharedFiles s = .ok exampleDocument) ∧
      (sharedSources.map fun s => (key sharedFiles .here s).toOption) = [some "x/a", some "y/a"] ∧
      ∃ docs gs, @files .usual sharedSources ⟨"", ["build"]⟩ .here sharedFiles = (.ok docs, gs) ∧
        Entries.get? "x/a" docs = some ⟨[]⟩ ∧
        @Artifact.load .usual gs (artifact ⟨"", ["build"]⟩ "x/a") = .ok exampleDocument := by
  have hreads : ∀ s ∈ sharedSources, sharedFiles.read s = .ok (Utf8.encode exampleText) := by
    decide
  have hkey : (key sharedFiles .here ⟨"", ["x", "a.graphql"]⟩).toOption = some "x/a" := by
    decide
  have hload : @Artifact.load .usual sharedFiles (artifact ⟨"", ["build"]⟩ "x/a") = .ok ⟨[]⟩ := by
    obtain ⟨place, time, hfind⟩ := read_eq_ok.mp
      (show sharedFiles.read (artifact ⟨"", ["build"]⟩ "x/a") = .ok (Artifact.bytesOf ⟨[]⟩) by
        decide)
    exact @Artifact.load_bytesOf .usual _ _ _ _ _ ⟨rfl, nofun⟩ (by decide) (by decide) hfind
  have hfresh : isFresh sharedFiles ⟨"", ["x", "a.graphql"]⟩ (artifact ⟨"", ["build"]⟩ "x/a") =
      .ok true := by decide
  have hfile : @file .usual ⟨"", ["x", "a.graphql"]⟩ (artifact ⟨"", ["build"]⟩ "x/a") sharedFiles =
      (.ok ⟨[]⟩, sharedFiles) := by
    simp only [file, hfresh, hload]
  have hfirst : @files .usual sharedSources ⟨"", ["build"]⟩ .here sharedFiles =
      @filesInto .usual ⟨"", ["build"]⟩ .here sharedSources.tail [("x/a", ⟨[]⟩)] sharedFiles :=
    @filesInto_of_file _ _ _ _ _ _ _ _ .usual (eq_ok_of_toOption hkey) rfl hfile _
  have hsecond :
      @filesInto .usual ⟨"", ["build"]⟩ .here sharedSources.tail [("x/a", ⟨[]⟩)] sharedFiles =
      (.ok ([("x/a", ⟨[]⟩)] ++ [("y/a", exampleDocument)]), sharedSaved) :=
    @filesInto_exampleText _ _ _ _ _ _ .usual (by decide) (by decide) rfl (.inl (by decide))
      (by decide) []
  refine ⟨fun s hs => @parseFile_exampleText _ _ .usual (hreads s hs), by decide, _, _,
    hfirst.trans hsecond, rfl, ?_⟩
  obtain ⟨place, time, hfind⟩ := read_eq_ok.mp
    (show sharedSaved.read (artifact ⟨"", ["build"]⟩ "x/a") = .ok (Artifact.bytesOf exampleDocument) by
      decide)
  exact @Artifact.load_bytesOf .usual _ _ _ _ _ ⟨rfl, by decide⟩ (by decide) (by decide) hfind

/-- A source for which there cannot be an artifact. -/
def longFiles : FileSystem where
  nodes := [(["w"], .directory 0), (["w", "build"], .directory 0),
    (["w", nameOfSize 250], .file (Utf8.encode exampleText) 0)]
  workingDirectory := ["w"]
  now := 1

theorem longFiles_fails : @parseFile .usual longFiles (longSource [] 250) = .ok exampleDocument ∧
    key longFiles .here (longSource [] 250) = .ok (keyOfParts [nameOfSize 250]) ∧
    longFiles.node? ["w", "build", longArtifactName 250] = none ∧
    @files .usual [longSource [] 250] ⟨"", ["build"]⟩ .here longFiles =
      (.error (.fault (.file .nameTooLong)), longFiles) := by
  have hn : 250 ≠ 0 := by decide
  have hfront : AreDirectoryNames [] := ⟨nofun, nofun, nofun⟩
  have hsound : longFiles.IsSound := isSound_of_nodes (by decide) (by decide +kernel)
  have hlinks : longFiles.HasNoLinks := hasNoLinks_of_nodes (by simp [longFiles])
  have hfile : longFiles.node? ["w", nameOfSize 250] =
      some (.file (Utf8.encode exampleText) 0) := by decide +kernel
  exact ⟨@parseFile_exampleText _ _ .usual
      ((read_longSource hfront (by decide) (by decide +kernel) hsound hsound.working).2 _ _ hfile),
    (key_longSource hfront hn hsound hlinks).2, by decide +kernel,
    @files_longSource _ _ _ _ hfront hn .usual (by decide) hsound hlinks (by decide)⟩

/-- Sources whose artifacts are in the way of a source or of each other are not compiled, or what is
handed out for one of them is not what its artifact says in the end. A source whose artifact cannot be
written is not compiled either. -/
theorem disturbedFiles_not_healed :
    ((∀ s ∈ insideSources, @parseFile .usual insideFiles s = .ok exampleDocument) ∧
      (insideSources.map fun s => (key insideFiles .here s).toOption) =
        [some "a", some "build/a.graphql"] ∧
      ∃ e gs text, @files .usual insideSources ⟨"", ["build"]⟩ .here insideFiles = (.error e, gs) ∧
        report e = some text) ∧
    ((∀ s ∈ crossedSources, @parseFile .usual crossedFiles s = .ok exampleDocument) ∧
      (crossedSources.map fun s => (key crossedFiles .here s).toOption) =
        [some "a", some "a.graphql.json/b"] ∧
      ∃ e gs, @files .usual crossedSources ⟨"", ["build"]⟩ .here crossedFiles = (.error (.fault e), gs)) ∧
    ((∀ s ∈ sharedSources, @parseFile .usual sharedFiles s = .ok exampleDocument) ∧
      (sharedSources.map fun s => (key sharedFiles .here s).toOption) = [some "x/a", some "y/a"] ∧
      ∃ docs gs, @files .usual sharedSources ⟨"", ["build"]⟩ .here sharedFiles = (.ok docs, gs) ∧
        Entries.get? "x/a" docs = some ⟨[]⟩ ∧
        @Artifact.load .usual gs (artifact ⟨"", ["build"]⟩ "x/a") = .ok exampleDocument) ∧
    @parseFile .usual longFiles (longSource [] 250) = .ok exampleDocument ∧
    key longFiles .here (longSource [] 250) = .ok (keyOfParts [nameOfSize 250]) ∧
    longFiles.node? ["w", "build", longArtifactName 250] = none ∧
    @files .usual [longSource [] 250] ⟨"", ["build"]⟩ .here longFiles =
      (.error (.fault (.file .nameTooLong)), longFiles) :=
  ⟨insideFiles_fails, crossedFiles_fails, sharedFiles_differs, longFiles_fails⟩

end GraphQLDoc.Compile
