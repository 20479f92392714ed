import GraphQLDoc.Proofs.Workspace.Progress

/-!
Sources with one root and one build directory, and what compiling them and changing them keeps: the
build directory holds nothing but artifacts and directories on the way to them, and an artifact that
is newer than its source holds the document of the source.
-/
namespace GraphQLDoc.Compile

open FileSystem

variable [Machine]

/-- Sources that are compiled with one root and one build directory. -/
structure IsSetting (fs : FileSystem) (root build : Path) (sources : Set Path) : Prop where
  sound : fs.IsSound
  rooted : ∃ r, fs.LeadsTo root r
  source : ∀ s ∈ sources, ∃ r, fs.LeadsTo s r
  /-- No name has a backslash. -/
  plain : ∀ s ∈ sources, ∀ r parts, fs.LeadsTo root r → fs.LeadsTo s (r ++ parts) →
    ∀ part ∈ parts, Path.IsPlainPart part
  /-- No source is in the build directory, and no path of one leads through its inside. -/
  outside : ∀ s ∈ sources, ∀ b q, fs.LeadsTo build b → IsBelow b q → ¬ fs.ComesBy s q
  /-- Sources with one key are one file. -/
  keys : ∀ s ∈ sources, ∀ t ∈ sources, ∀ k, key fs root s = .ok k → key fs root t = .ok k →
    ∀ r, fs.LeadsTo s r → fs.LeadsTo t r
  /-- No artifact is in the place of a directory on the path of another one. -/
  artifacts : ∀ s ∈ sources, ∀ t ∈ sources, ∀ k l, key fs root s = .ok k →
    key fs root t = .ok l → k ≠ l → ∀ q, fs.LeadsTo (artifact build k) q →
      ¬ fs.ComesBy (artifact build l).parent q
  /-- No name on the path of a source or of an artifact is too long. -/
  short : ∀ s ∈ sources, fs.HasShortNames s ∧
    ∀ k, key fs root s = .ok k → fs.HasShortNames (artifact build k)
  /-- The directories of an artifact are not more than the machine grants calls to make them. -/
  shallow : ∀ s ∈ sources, ∀ k, key fs root s = .ok k →
    (artifact build k).parent.parts.length ≤ Machine.calls
  /-- The machine grants the calls to read an artifact. -/
  calls : Artifact.maxDepth ≤ Machine.calls
  /-- The build directory is empty. -/
  empty : ∀ b q, fs.LeadsTo build b → IsBelow b q → fs.node? q = none

variable {start fs gs made : FileSystem} {root build s t : Path} {sources : Set Path}
  {k l : String} {b q r place : List String} {bytes : List UInt8} {d : Document}

namespace IsSetting

variable (h : IsSetting start root build sources)
include h

theorem noLinks (hb : start.LeadsTo build b) : start.HasNoLinksBelow b := by
  rintro q hq ⟨target, htarget⟩
  rw [h.empty b q hb hq] at htarget
  exact nomatch htarget

theorem isApart : IsApart start root build sources where
  sound := h.sound
  plain s hs p q parts hp hq hparts := by
    obtain ⟨rr, hroot⟩ := h.rooted
    obtain ⟨r, hr⟩ := h.source s hs
    obtain rfl := Except.ok.inj ((h.sound.resolve_of_leadsTo hr).symm.trans hp)
    obtain rfl := Except.ok.inj ((h.sound.resolve_of_leadsTo hroot).symm.trans hq)
    obtain rfl : r = rr ++ parts := congrArg Path.parts (Path.eq_of_behind? hparts)
    exact h.plain s hs rr parts hroot hr
  outside s hs b r hb hr hbelow := h.outside s hs b r hb hbelow hr.comesBy
  unlinked s _ k b q _ hb _ hbelow := h.noLinks hb q hbelow

/-- The components of a source below the root are components of its place. -/
theorem parts_subset (hk : HasKey start root sources s k) : ∃ parts, Path.IsPlain parts ∧
    k = keyOfParts parts ∧ (∀ name ∈ artifactNames parts, name ≠ "..") ∧
    ∀ r, start.LeadsTo s r → parts ⊆ r := by
  obtain ⟨p, q, parts, hp, hq, hparts, hne, hdots, rfl⟩ := exists_parts_of_key hk.2
  refine ⟨parts, ⟨hne, h.isApart.plain s hk.1 p q parts hp hq hparts⟩, rfl,
    artifactNames_dots hdots, fun r hr => ?_⟩
  obtain rfl := Except.ok.inj ((h.sound.resolve_of_leadsTo hr).symm.trans hp)
  have hr' : r = q.parts ++ parts := congrArg Path.parts (Path.eq_of_behind? hparts)
  exact hr' ▸ List.subset_append_right _ _

theorem artifact_isBelow (hplace : IsArtifactAt start root build sources k place)
    (hb : start.LeadsTo build b) : IsBelow b place :=
  h.isApart.artifact_isBelow hplace hb

/-- Keys stay as they are. -/
theorem key_eq (hlinks : KeepsLinks start fs) (hsound : fs.IsSound) (hs : s ∈ sources) :
    key fs root s = key start root s := by
  obtain ⟨rr, hroot⟩ := h.rooted
  obtain ⟨r, hr⟩ := h.source s hs
  exact key_eq_of_leadsTo hlinks h.sound hsound hr hroot

end IsSetting

/-! What is kept. -/

/-- Nothing is in the build directory but artifacts and directories on the way to them. -/
structure IsTidy (start : FileSystem) (root build : Path) (sources : Set Path)
    (fs : FileSystem) : Prop where
  links : KeepsLinks start fs
  sound : fs.IsSound
  node : ∀ b q n, start.LeadsTo build b → IsBelow b q → fs.node? q = some n →
    (∃ time, n = .directory time) ∧ IsArtifactWay start root build sources q ∨
      (∃ bytes time, n = .file bytes time) ∧ ∃ k, IsArtifactAt start root build sources k q

/-- An artifact that is newer than its source holds the document of the source, and it is not newer
than now. -/
def IsUpToDate (fs : FileSystem) (r place : List String) : Prop :=
  ∀ bytes time, fs.node? place = some (.file bytes time) → time ≤ fs.now ∧
    ∀ n changed, fs.node? r = some n → Changed n changed → changed < time →
      ∃ old d, n = .file old changed ∧ IsDocumentOf old d ∧ d.nesting ≤ maxNesting ∧
        bytes = Artifact.bytesOf d

/-- Besides, all artifacts are up to date. -/
structure IsCurrent (start : FileSystem) (root build : Path) (sources : Set Path)
    (fs : FileSystem) : Prop extends IsTidy start root build sources fs where
  upToDate : ∀ s k r place, HasKey start root sources s k → start.LeadsTo s r →
    start.LeadsTo (artifact build k) place → IsUpToDate fs r place

theorem IsUpToDate.of_made (h : IsUpToDate fs r place) (hnow : fs.now ≤ gs.now) {new new' : Prop}
    (hr : Made gs.now new (fs.node? r) (gs.node? r))
    (hplace : Made gs.now new' (fs.node? place) (gs.node? place)) : IsUpToDate gs r place := by
  intro bytes time hfile
  have hold : fs.node? place = some (.file bytes time) := by
    rw [hfile] at hplace
    generalize fs.node? place = m at hplace
    cases hplace
    rfl
  obtain ⟨htime, hcurrent⟩ := h bytes time hold
  refine ⟨htime.trans hnow, fun n changed hn hchanged hlt => ?_⟩
  rw [hn] at hr
  generalize hm : fs.node? r = m at hr
  cases hr with
  | same => exact hcurrent n changed hm hchanged hlt
  -- a directory that was changed now is not older than the artifact
  | touched =>
    rcases hchanged with ⟨_, hn⟩ | hn
    · exact nomatch hn
    · cases hn
      omega
  | made =>
    rcases hchanged with ⟨_, hn⟩ | hn
    · exact nomatch hn
    · cases hn
      omega

omit [Machine] in
theorem IsTidy.of_made (h : IsTidy start root build sources fs) (hlinks : KeepsLinks fs gs)
    (hsound : gs.IsSound) (now : Int)
    (hnode : ∀ b q, start.LeadsTo build b → IsBelow b q →
      Made now (IsArtifactWay start root build sources q) (fs.node? q) (gs.node? q) ∨
        (∃ bytes time, gs.node? q = some (.file bytes time)) ∧
          ∃ k, IsArtifactAt start root build sources k q) :
    IsTidy start root build sources gs where
  links := h.links.trans hlinks
  sound := hsound
  node b q n hb hq hn := by
    rcases hnode b q hb hq with hmade | ⟨⟨bytes, time, hfile⟩, hplace⟩
    · rw [hn] at hmade
      generalize hm : fs.node? q = m at hmade
      cases hmade with
      | same => exact h.node b q n hb hq hm
      | touched =>
        rcases h.node b q _ hb hq hm with ⟨-, hway⟩ | ⟨⟨_, _, hfile⟩, -⟩
        · exact .inl ⟨⟨now, rfl⟩, hway⟩
        · exact nomatch hfile
      | made hway => exact .inl ⟨⟨now, rfl⟩, hway⟩
    · exact .inr ⟨⟨bytes, time, Option.some.inj (hn.symm.trans hfile)⟩, hplace⟩

/-! Compiling. -/

section Compiling

variable (h : IsSetting start root build sources) (hk : HasKey start root sources s k)
include hk

omit [Machine] in
theorem IsTidy.comesBy_way (hfs : IsTidy start root build sources fs)
    (hq : fs.ComesBy (artifact build k).parent q) : IsArtifactWay start root build sources q :=
  ⟨s, k, hk, hfs.links.comesBy.mp hq⟩

omit [Machine] in
theorem IsTidy.makes (hfs : IsTidy start root build sources fs)
    (hmakes : Makes fs gs (artifact build k).parent) : IsTidy start root build sources gs :=
  hfs.of_made hmakes.links (hmakes.sound hfs.sound) fs.now fun _ q _ _ =>
    .inl ((hmakes.adds.node q).mono (hfs.comesBy_way hk))

omit [Machine] in
theorem IsTidy.saves (hfs : IsTidy start root build sources fs)
    (hsaves : Saves fs gs (artifact build k) place bytes) : IsTidy start root build sources gs := by
  refine hfs.of_made hsaves.links (hsaves.sound hfs.sound) fs.now fun b q hb hq => ?_
  by_cases hqp : q = place
  · subst hqp
    exact .inr ⟨⟨_, _, hsaves.written⟩, k, ⟨s, hk⟩, hfs.links.leadsTo.mp hsaves.leads⟩
  · exact .inl ((hsaves.node q hqp).mono (hfs.comesBy_way hk))

theorem IsCurrent.makes (hfs : IsCurrent start root build sources fs)
    (hmakes : Makes fs gs (artifact build k).parent) : IsCurrent start root build sources gs := by
  have hnow : gs.now = fs.now := hmakes.adds.now
  refine ⟨hfs.toIsTidy.makes hk hmakes, fun t l r place hl hr hplace => ?_⟩
  have hnode (q : List String) : Made gs.now (fs.ComesBy (artifact build k).parent q) (fs.node? q)
      (gs.node? q) := hnow ▸ hmakes.adds.node q
  exact (hfs.upToDate t l r place hl hr hplace).of_made (le_of_eq hnow.symm) (hnode r) (hnode place)

include h

/-- The artifact of a document that was parsed is up to date. -/
theorem IsCurrent.saves (hfs : IsCurrent start root build sources fs)
    (hparse : parseFile fs s = .ok d) (hnesting : d.nesting ≤ maxNesting)
    (hsaves : Saves fs gs (artifact build k) place (Artifact.bytesOf d)) :
    IsCurrent start root build sources gs := by
  have hnow : gs.now = fs.now := hsaves.now
  have hplace := hfs.links.leadsTo.mp hsaves.leads
  obtain ⟨r, old, changed, hfind, hdocument⟩ := parseFile_eq_ok_iff.mp hparse
  have hr : start.LeadsTo s r := hfs.links.leadsTo.mp (find_leadsTo hfind (.inl rfl))
  have hsource : fs.node? r = some (.file old changed) := find_isIn hfind
  refine ⟨hfs.toIsTidy.saves hk hsaves, fun t l r' place' hl hr' hplace' => ?_⟩
  have hne := h.isApart.source_ne hl.1 hr' ⟨⟨s, hk⟩, hplace⟩
  have hmade : Made gs.now (fs.ComesBy (artifact build k).parent r') (fs.node? r') (gs.node? r') :=
    hnow ▸ hsaves.node r' hne
  by_cases heq : place' = place
  · subst heq
    obtain rfl := h.isApart.artifact_unique ⟨⟨t, hl⟩, hplace'⟩ ⟨⟨s, hk⟩, hplace⟩
    obtain rfl := hr'.unique (h.keys s hk.1 t hl.1 l hk.2 hl.2 r hr)
    intro bytes time hfile
    obtain ⟨rfl, rfl⟩ := FileNode.file.inj (Option.some.inj (hfile.symm.trans hsaves.written))
    refine ⟨le_of_eq hnow.symm, fun n changed' hn hchanged _ => ?_⟩
    have hsame := (hsaves.file_iff hne).mpr hsource
    obtain rfl := Option.some.inj (hn.symm.trans hsame)
    rcases hchanged with ⟨_, hn⟩ | hn
    · cases hn
      exact ⟨old, d, rfl, hdocument, hnesting, rfl⟩
    · exact nomatch hn
  · have hmade' : Made gs.now (fs.ComesBy (artifact build k).parent place') (fs.node? place')
        (gs.node? place') := hnow ▸ hsaves.node place' heq
    exact (hfs.upToDate t l r' place' hl hr' hplace').of_made (le_of_eq hnow.symm) hmade hmade'

theorem IsCurrent.effect (hfs : IsCurrent start root build sources fs)
    (heffect : Effect fs s (artifact build k) gs) : IsCurrent start root build sources gs := by
  cases heffect with
  | unchanged => exact hfs
  | made hmakes => exact hfs.makes hk hmakes
  | saved hparse hnesting hsaves => exact hfs.saves h hk hparse hnesting hsaves

end Compiling

/-- Compiling keeps the artifacts up to date, also where it fails. -/
theorem IsCurrent.filesInto (h : IsSetting start root build sources) {list : List Path}
    (hlist : ∀ s ∈ list, s ∈ sources) {done : List (String × Document)}
    (hfs : IsCurrent start root build sources fs) :
    IsCurrent start root build sources (filesInto build root list done fs).2 := by
  refine filesInto_keeps (fun s hs k gs gs' hgs hk heffect => ?_) hfs
  have hkey := h.key_eq hgs.links hgs.sound (hlist s hs)
  exact hgs.effect h ⟨hlist s hs, hkey.symm.trans hk⟩ heffect

end GraphQLDoc.Compile
