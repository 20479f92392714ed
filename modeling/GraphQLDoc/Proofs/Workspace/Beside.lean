import GraphQLDoc.Proofs.Workspace.Setting

/-!
Compiling on two file systems that differ in nothing but the artifacts in the build directory. Where
all artifacts are up to date on the one, and none is there on the other, the sources are compiled to
the same documents, or one of them fails in the same way.
-/
namespace GraphQLDoc.Compile

open FileSystem

variable {start fs gs fs' gs' : FileSystem} {root build s : Path} {sources : Set Path}
  {k : String} {b q r place : List String} {bytes : List UInt8} {d : Document}

/-- A directory on the way to the build directory, or in front of one. -/
def IsKept (start : FileSystem) (build : Path) (q : List String) : Prop :=
  ∃ v, start.ComesBy build v ∧ q <+: v

/-- Two file systems with one build directory that agree outside of it. -/
structure Beside (start : FileSystem) (root build : Path) (sources : Set Path) (b : List String)
    (fs gs : FileSystem) : Prop where
  tidy : IsTidy start root build sources fs
  tidy' : IsTidy start root build sources gs
  directory : fs.IsDirectory build b
  directory' : gs.IsDirectory build b
  same : ∀ q, ¬ IsBelow b q ∨ IsKept start build q → SameContent (fs.node? q) (gs.node? q)

theorem Beside.symm (h : Beside start root build sources b fs gs) :
    Beside start root build sources b gs fs :=
  ⟨h.tidy', h.tidy, h.directory', h.directory, fun q hq => (h.same q hq).symm⟩

theorem IsTidy.leadsTo (hfs : IsTidy start root build sources fs) (hb : fs.IsDirectory build b) :
    start.LeadsTo build b := by
  obtain ⟨time, hfind⟩ := hb
  exact hfs.links.leadsTo.mp (find_leadsTo hfind (.inl rfl))

theorem not_isBelow_self (b : List String) : ¬ IsBelow b b := by
  rintro ⟨names, hne, heq⟩
  exact hne (List.self_eq_append_right.mp heq)

/-- What the path of the build directory comes by is there. -/
theorem IsTidy.isOnTheWay (hfs : IsTidy start root build sources fs)
    (hb : fs.IsDirectory build b) (hq : start.ComesBy build q) : fs.IsOnTheWay b q := by
  obtain ⟨time, hfind⟩ := hb
  exact find_comesBy hfs.sound hfind (hfs.links.comesBy.mpr hq)

/-- What is kept inside of the build directory are directories. -/
theorem IsTidy.isDirectoryAt_kept (hfs : IsTidy start root build sources fs)
    (hb : fs.IsDirectory build b) (hbelow : IsBelow b q) (hq : IsKept start build q) :
    fs.IsDirectoryAt q := by
  obtain ⟨v, hv, rest, rfl⟩ := hq
  obtain ⟨n, hn, hend⟩ := hfs.isOnTheWay hb hv
  by_cases hnil : rest = []
  · subst hnil
    rw [List.append_nil] at hn hend
    rcases hfs.node b q n (hfs.leadsTo hb) hbelow hn with ⟨⟨time, rfl⟩, -⟩ | ⟨⟨_, _, hfile⟩, -⟩
    · exact ⟨time, hn⟩
    · obtain rfl := hend _ _ hfile
      exact absurd hbelow (not_isBelow_self _)
  · exact hfs.sound.front hnil hn

/-- Names behind the build directory: those of directories, and of an artifact in the last one. -/
structure IsFront (start : FileSystem) (build s : Path) (k : String) (front : List String)
    (last : String) : Prop where
  path : artifact build k = build.below (front ++ [last])
  dots : ∀ name ∈ front ++ [last], name ≠ ".."
  source : ∀ r, start.LeadsTo s r → front ⊆ r

namespace IsFront

variable {front : List String} {last : String} (hf : IsFront start build s k front last)
include hf

theorem parent_eq : (artifact build k).parent = build.below front := by
  rw [hf.path, Path.parent_below_concat]

theorem frontDots : ∀ name ∈ front, name ≠ ".." :=
  fun name hname => hf.dots name (List.mem_append_left _ hname)

end IsFront

section Setting

variable [Machine] (h : IsSetting start root build sources) (hk : HasKey start root sources s k)
include h

section Front

variable {front : List String} {last : String} (hf : IsFront start build s k front last)
include hf

theorem IsFront.place_eq (hplace : start.LeadsTo (artifact build k) place)
    (hb : start.LeadsTo build b) : place = b ++ (front ++ [last]) := by
  rw [hf.path] at hplace
  obtain ⟨b', hb', rfl⟩ := hplace.of_below hf.dots fun _ hb => (h.noLinks hb).areLinkFree _
  rw [hb.unique hb']

/-- The directories on the way to an artifact are those on the way to the build directory, and names
below it. -/
theorem IsFront.comesBy (hb : start.LeadsTo build b)
    (hq : start.ComesBy (artifact build k).parent q) :
    start.ComesBy build q ∨ ∃ before, before <+: front ∧ q = b ++ before := by
  rw [hf.parent_eq] at hq
  exact hq.of_below hf.frontDots hb ((h.noLinks hb).areLinkFree _)

end Front

include hk

theorem exists_front : ∃ front last, IsFront start build s k front last := by
  obtain ⟨parts, hplain, rfl, hdots, hsource⟩ := h.parts_subset hk
  exact ⟨parts.dropLast, _, artifact_eq_below hplain build, hdots, fun r hr =>
    List.Subset.trans (List.dropLast_subset _) (hsource r hr)⟩

/-- Saving an artifact changes nothing but the times of directories outside of the build directory. -/
theorem IsTidy.same_of_saves (hfs : IsTidy start root build sources fs)
    (hb : fs.IsDirectory build b) (hsaves : Saves fs gs (artifact build k) place bytes)
    (hq : ¬ IsBelow b q ∨ IsKept start build q) : SameContent (fs.node? q) (gs.node? q) := by
  have hbuild := hfs.leadsTo hb
  have hplace := hfs.links.leadsTo.mp hsaves.leads
  have hsome (hcomes : start.ComesBy (artifact build k).parent q) : fs.node? q ≠ none := by
    obtain ⟨front, last, hf⟩ := exists_front h hk
    rcases hf.comesBy h hbuild hcomes with hq | ⟨before, -, rfl⟩
    · obtain ⟨n, hn, -⟩ := hfs.isOnTheWay hb hq
      simp [hn]
    · by_cases hnil : before = []
      · obtain ⟨time, htime⟩ := hb.isDirectoryAt
        simp [hnil, htime]
      · have hbelow : IsBelow b (b ++ before) := ⟨before, hnil, rfl⟩
        obtain ⟨time, htime⟩ := hfs.isDirectoryAt_kept hb hbelow (hq.resolve_left fun h => h hbelow)
        simp [htime]
  by_cases hqp : q = place
  · -- no kept directory is in the place of the artifact
    subst hqp
    have hbelow := h.artifact_isBelow ⟨⟨s, hk⟩, hplace⟩ hbuild
    obtain ⟨time, htime⟩ := hfs.isDirectoryAt_kept hb hbelow (hq.resolve_left fun h => h hbelow)
    obtain ⟨_, _, hfile⟩ := hsaves.before _ htime
    exact nomatch hfile
  · have hmade := hsaves.node q hqp
    generalize fs.node? q = n, gs.node? q = n' at hmade hsome
    cases hmade with
    | same => exact .same _
    | touched => exact .directory _ _
    | made hcomes => exact absurd rfl (hsome (hfs.links.comesBy.mp hcomes))

/-- No file is in the way of the directories of an artifact: it would be an artifact in the place of
a directory. -/
theorem IsTidy.clear (hfs : IsTidy start root build sources fs) (hb : fs.IsDirectory build b)
    {front before : List String} {last : String} (hf : IsFront start build s k front last)
    (hbefore : before <+: front) :
    fs.node? (b ++ before) = none ∨ fs.IsDirectoryAt (b ++ before) := by
  have hbuild := hfs.leadsTo hb
  by_cases hnil : before = []
  · rw [hnil, List.append_nil]
    exact .inr hb.isDirectoryAt
  cases hn : fs.node? (b ++ before) with
  | none => exact .inl rfl
  | some n =>
    rcases hfs.node b _ n hbuild ⟨before, hnil, rfl⟩ hn with ⟨⟨time, rfl⟩, -⟩ | ⟨-, l, hl⟩
    · exact .inr ⟨time, hn⟩
    · obtain ⟨⟨t, ht⟩, hleads⟩ := hl
      have hne : l ≠ k := by
        rintro rfl
        exact below_ne hbefore (hf.place_eq h hleads hbuild)
      refine absurd ?_ (h.artifacts t ht.1 s hk.1 l k ht.2 hk.2 hne _ hleads)
      rw [hf.parent_eq]
      exact .below hf.frontDots hbuild ((h.noLinks hbuild).areLinkFree _) hbefore

/-- The machine grants the calls to make the directories of an artifact. -/
theorem IsFront.calls {front : List String} {last : String}
    (hf : IsFront start build s k front last) (hb : fs.IsDirectory build b) :
    ∃ before rest, front = before ++ rest ∧ fs.IsDirectoryAt (b ++ before) ∧
      rest.length ≤ Machine.calls + 1 := by
  have hparts := h.shallow s hk.1 k hk.2
  rw [hf.parent_eq] at hparts
  simp only [Path.below, List.length_append] at hparts
  refine ⟨[], front, rfl, ?_, by omega⟩
  rw [List.append_nil]
  exact hb.isDirectoryAt

/-- The directories on the way to an artifact can be made. -/
theorem IsTidy.exists_made (hfs : IsTidy start root build sources fs) (hb : fs.IsDirectory build b)
    {front : List String} {last : String} (hf : IsFront start build s k front last)
    (hnames : ∀ name ∈ front, IsEntryName name) (hasked : refusal? (build.below front) = none) :
    ∃ made, fs.ensureDirectories (artifact build k).parent = (.ok (), made) ∧
      Makes fs made (artifact build k).parent ∧ made.IsDirectoryAt (b ++ front) := by
  obtain ⟨made, hmade, hdirectory⟩ := exists_ensureWithin hfs.sound hb hnames hasked
    (fun before hbefore => hfs.clear h hk hb hf hbefore) (hf.calls h hk hb)
  have hmakes := makes_ensureWithin Machine.calls (build.below front) fs
  rw [hmade] at hmakes
  rw [hf.parent_eq]
  exact ⟨made, hmade, hmakes, hdirectory⟩

/-- An artifact that can be saved on the one file system can be saved on the other. -/
theorem Beside.exists_save (hbeside : Beside start root build sources b fs gs)
    (hplace : start.LeadsTo (artifact build k) place)
    (hnames : ∀ name ∈ place, IsEntryName name)
    (hfree : ¬ fs.IsDirectoryAt place) (hnesting : d.nesting ≤ maxNesting) :
    ∃ gs', Artifact.save d (artifact build k) gs = (.ok (), gs') := by
  have hgs := hbeside.tidy'
  have hb := hbeside.directory'
  have hbuild := hgs.leadsTo hb
  obtain ⟨front, last, hf⟩ := exists_front h hk
  obtain rfl := hf.place_eq h hplace hbuild
  -- no directory is in the place of the artifact: it would be on the way to another artifact
  have hcomes (hq : start.ComesBy (artifact build k).parent (b ++ (front ++ [last]))) :
      fs.IsDirectoryAt (b ++ (front ++ [last])) := by
    rcases hf.comesBy h hbuild hq with hq | ⟨before, hbefore, heq⟩
    · exact hbeside.tidy.isDirectoryAt_kept hbeside.directory ⟨_, by simp, rfl⟩
        ⟨_, hq, List.prefix_refl _⟩
    · exact absurd heq.symm (below_ne hbefore)
  have hfile (n : FileNode) (hn : gs.node? (b ++ (front ++ [last])) = some n) :
      ∃ bytes time, n = .file bytes time := by
    rcases hgs.node b _ n hbuild ⟨_, by simp, rfl⟩ hn with ⟨-, t, l, hl, hq⟩ | ⟨hfile, -⟩
    · by_cases hne : k = l
      · exact absurd (hcomes (hne ▸ hq)) hfree
      · exact absurd hq (h.artifacts s hk.1 t hl.1 k l hk.2 hl.2 hne _ hplace)
    · exact hfile
  have hasked := refusal?_eq_none.mpr ⟨hplace.1, ((h.short s hk.1).2 k hk.2).path⟩
  rw [hf.path] at hasked ⊢
  refine Artifact.exists_save hgs.sound hb
    (fun name hname => hnames name (List.mem_append_right _ hname)) hasked
    (fun before hbefore => hgs.clear h hk hb hf hbefore) hfile (fun hq => hfree (hcomes ?_))
    (hf.calls h hk hb) hnesting
  rw [hf.parent_eq]
  exact hgs.links.comesBy.mp hq

theorem Beside.exists_save_of_saves (hbeside : Beside start root build sources b fs gs)
    (hsaves : Saves fs fs' (artifact build k) place bytes) (hnesting : d.nesting ≤ maxNesting) :
    ∃ gs', Artifact.save d (artifact build k) gs = (.ok (), gs') := by
  have hplace := hbeside.tidy.links.leadsTo.mp hsaves.leads
  refine hbeside.exists_save h hk hplace
    (fun name => (hsaves.sound hbeside.tidy.sound).isEntryName hsaves.written) ?_ hnesting
  rintro ⟨time, htime⟩
  obtain ⟨_, _, hfile⟩ := hsaves.before _ htime
  exact nomatch hfile

/-- Why an artifact of a source that is there cannot be saved does not depend on the artifacts that
are there. -/
theorem IsTidy.save_error (hfs : IsTidy start root build sources fs) (hb : fs.IsDirectory build b)
    {front : List String} {last : String} (hf : IsFront start build s k front last)
    (hnames : ∀ name ∈ front, IsEntryName name) {made : FileSystem} {f : Fault}
    (hsave : Artifact.save d (artifact build k) fs = (.error f, made)) :
    f = ((refusal? (build.below front)).map Fault.file).getD
      (if maxNesting < d.nesting then .dump .tooDeep
      else .file ((refusal? (artifact build k)).getD
        (if maxNameBytes < last.utf8ByteSize then .nameTooLong else .isDirectory))) := by
  have hbuild := hfs.leadsTo hb
  cases hasked : refusal? (build.below front) with
  | some e =>
    unfold Artifact.save at hsave
    rw [hf.parent_eq, ensureDirectories_of_refusal hasked] at hsave
    cases hsave
    rfl
  | none =>
    obtain ⟨made', hmade, hmakes, hdirectory⟩ :=
      hfs.exists_made h hk hb hf hnames hasked
    rw [Option.map_none, Option.getD_none]
    unfold Artifact.save at hsave
    rw [hmade] at hsave
    dsimp only at hsave
    split at hsave
    · rename_i e hdump
      cases hsave
      have hnesting : maxNesting < d.nesting := by
        by_contra hnesting
        rw [Artifact.serialize_eq (Nat.not_lt.mp hnesting)] at hdump
        exact nomatch hdump
      rw [Artifact.serialize_tooDeep hnesting] at hdump
      rw [if_pos hnesting, Except.error.inj hdump]
    · rename_i text htext
      obtain ⟨hnesting, -⟩ := Artifact.serialize_eq_ok_iff.mp htext
      rw [if_neg (Nat.not_lt.mpr hnesting)]
      split at hsave
      · cases hsave
      rename_i e hwrite
      cases hsave
      have hlink : ¬ made.IsLink (b ++ (front ++ [last])) := by
        rw [(hfs.links.trans hmakes.links).isLink]
        exact h.noLinks hbuild _ ⟨_, by simp, rfl⟩
      rw [hf.path] at hwrite ⊢
      rw [write_error (hmakes.sound hfs.sound) (hb.grows hmakes.adds.grows) (hf.dots last (by simp))
        hdirectory hlink hwrite]

/-- Both keep beside each other when an artifact is saved on the second one. -/
theorem Beside.saves_right (hbeside : Beside start root build sources b fs gs)
    (hsaves : Saves gs gs' (artifact build k) place bytes) :
    Beside start root build sources b fs gs' where
  tidy := hbeside.tidy
  tidy' := hbeside.tidy'.saves hk hsaves
  directory := hbeside.directory
  directory' := hbeside.directory'.grows hsaves.grows
  same q hq := (hbeside.same q hq).trans
    (hbeside.tidy'.same_of_saves h hk hbeside.directory' hsaves hq)

theorem Beside.saves_left (hbeside : Beside start root build sources b fs gs)
    (hsaves : Saves fs fs' (artifact build k) place bytes) :
    Beside start root build sources b fs' gs :=
  (hbeside.symm.saves_right h hk hsaves).symm

end Setting

/-- A source reads the same on both. -/
theorem Beside.parseFile_eq [Machine] (h : IsSetting start root build sources)
    (hbeside : Beside start root build sources b fs gs) (hs : s ∈ sources) :
    parseFile gs s = parseFile fs s := by
  have hbuild := hbeside.tidy.leadsTo hbeside.directory
  have hworking : gs.workingDirectory = fs.workingDirectory :=
    hbeside.tidy'.links.workingDirectory.trans hbeside.tidy.links.workingDirectory.symm
  have hread : gs.read s = fs.read s := read_eq hworking fun q hq =>
    hbeside.same q (.inl fun hbelow =>
      h.outside s hs b q hbuild hbelow (hbeside.tidy.links.comesBy.mp hq))
  unfold parseFile readText
  rw [hread]

end GraphQLDoc.Compile
