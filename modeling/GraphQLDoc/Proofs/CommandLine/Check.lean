import GraphQLDoc.CommandLine.Run
import GraphQLDoc.Proofs.Validation.Verdict
import GraphQLDoc.Proofs.Workspace.Cache
import GraphQLDoc.Proofs.Workspace.Failure
import GraphQLDoc.Proofs.Workspace.Repeat
import GraphQLDoc.Proofs.Workspace.Sources

/-!
Checking a workspace once more. What the first check left are artifacts and directories on the way to
them, none of which is a source, so that the second one finds the same configuration, the same sources
and the same documents, and prints the same.
-/
namespace GraphQLDoc

open FileSystem

namespace FileSystem

variable {fs gs : FileSystem} {p : Path} {q : List String}

/-- No name holds a null character, and no link leads over one that does. -/
structure HasNames (fs : FileSystem) : Prop where
  name : ∀ q n, fs.node? q = some n → (Path.absolute q).hasNull = false
  target : ∀ q target, fs.node? q = some (.link target) → (Path.ofString target).hasNull = false

theorem hasNull_absolute : (Path.absolute p.parts).hasNull = p.hasNull := rfl

@[simp] theorem hasNull_append (place parts : List String) :
    (Path.absolute (place ++ parts)).hasNull =
      ((Path.absolute place).hasNull || (Path.absolute parts).hasNull) :=
  List.any_append

theorem HasNames.visits (h : fs.HasNames) {place parts : List String}
    (hplace : (Path.absolute place).hasNull = false) (hparts : (Path.absolute parts).hasNull = false)
    (hvisits : fs.Visits q place parts) : (Path.absolute q).hasNull = false := by
  have hcons {part : String} {rest : List String}
      (hparts : (Path.absolute (part :: rest)).hasNull = false) :
      (Path.absolute [part]).hasNull = false ∧ (Path.absolute rest).hasNull = false := by
    rwa [← List.singleton_append, hasNull_append, Bool.or_eq_false_iff] at hparts
  induction hvisits with
  | here => exact hplace
  | @up place rest _ ih =>
    refine ih ?_ (hcons hparts).2
    by_cases hnil : place = []
    · rw [hnil]
      rfl
    · rw [← List.dropLast_append_getLast hnil, hasNull_append, Bool.or_eq_false_iff] at hplace
      exact hplace.1
  | next _ hnext =>
    rw [← hnext, hasNull_append, hplace, (hcons hparts).1]
    rfl
  | on _ _ _ ih =>
    refine ih ?_ (hcons hparts).2
    rw [hasNull_append, hplace, (hcons hparts).1]
    rfl
  | link _ hlink _ ih =>
    have htarget := h.target _ _ hlink
    rw [← hasNull_absolute] at htarget
    refine ih ?_ ?_
    · unfold startFrom
      split
      · rfl
      · exact hplace
    · rw [hasNull_append, htarget, (hcons hparts).2]
      rfl

theorem HasNames.comesBy (h : fs.HasNames) (hsound : fs.IsSound) (hp : p.hasNull = false)
    (hcomes : fs.ComesBy p q) : (Path.absolute q).hasNull = false := by
  refine h.visits ?_ hp hcomes
  obtain ⟨time, htime⟩ := hsound.isDirectoryAt_start p
  exact h.name _ _ htime

/-! What is there stays what it is for those who ask. -/

namespace IsAlike

variable (h : IsAlike fs gs)
include h

theorem isDirectory (p : Path) : gs.isDirectory p = fs.isDirectory p := by
  have hstat := h.stat p
  unfold FileSystem.isDirectory
  generalize fs.stat p = r, gs.stat p = r' at hstat
  cases hstat <;> rfl

theorem hasPath (p : Path) : gs.hasPath p = fs.hasPath p := by
  have hstat := h.stat p
  unfold FileSystem.hasPath
  generalize fs.stat p = r, gs.stat p = r' at hstat
  cases hstat <;> rfl

theorem ask {α : Type} (p : Path) (answer : α) : gs.ask p answer = fs.ask p answer := by
  have hstat := h.stat p
  unfold FileSystem.ask
  generalize fs.stat p = r, gs.stat p = r' at hstat
  cases hstat <;> rfl

theorem resolve {a : Path} (ha : fs.resolve p = .ok a) : gs.resolve p = .ok a := by
  obtain ⟨hnull, hreal, hloop⟩ := resolve_eq_ok_iff.mp ha
  refine resolve_eq_ok_iff.mpr ⟨hnull, (h.toExtends.links.realPath_eq p).trans hreal, ?_⟩
  have hstat := h.stat a
  intro hgs
  generalize hr : fs.stat a = r, gs.stat a = r' at hstat hgs
  cases hstat with
  | same => exact hloop (hr.trans hgs)
  | directory => cases hgs

/-- There are the same directories. -/
theorem isShallow [Machine] {root : Path} {r : List String} (hshallow : Glob.IsShallow fs root r) :
    Glob.IsShallow gs root r := by
  have hback {q : List String} (hq : gs.IsDirectoryAt q) : fs.IsDirectoryAt q := by
    obtain ⟨time, htime⟩ := hq
    have hsame := h.node q
    rw [htime] at hsame
    unfold IsDirectoryAt
    generalize fs.node? q = n at hsame
    cases hsame <;> exact ⟨_, rfl⟩
  exact ⟨fun names hnames => hshallow.calls names (hback hnames),
    fun names hnames => hshallow.room names (hback hnames)⟩

theorem load [Machine] (p : Path) : Config.load gs p = Config.load fs p := by
  unfold Config.load readText
  rw [read_eq h.workingDirectory fun q _ => h.node q]

end IsAlike

/-- A configuration is read from a file. -/
theorem exists_find_of_load [Machine] {config : Config} (h : Config.load fs p = .ok config) :
    ∃ q bytes time, fs.find true p = .ok (.node q (.file bytes time)) := by
  unfold Config.load readText at h
  cases hread : fs.read p with
  | error e =>
    rw [hread] at h
    cases e <;> cases h
  | ok bytes =>
    obtain ⟨q, time, hfind⟩ := read_eq_ok.mp hread
    exact ⟨q, bytes, time, hfind⟩

/-- A directory that a path led to is there for those who come later. -/
theorem Extends.resolve {a : Path} (h : Extends fs gs) (hp : fs.resolve p = .ok a)
    (ha : fs.isDirectory a = true) : gs.resolve p = .ok a ∧ gs.isDirectory a = true := by
  obtain ⟨q, time, hfind⟩ := isDirectory_iff.mp ha
  obtain ⟨time', hfind'⟩ := IsDirectory.grows ⟨time, hfind⟩ h.grows
  obtain ⟨hnull, hreal, -⟩ := resolve_eq_ok_iff.mp hp
  refine ⟨resolve_eq_ok_iff.mpr ⟨hnull, (h.links.realPath_eq p).trans hreal, ?_⟩,
    isDirectory_iff.mpr ⟨q, time', hfind'⟩⟩
  rw [stat, hfind']
  intro hloop
  cases hloop

end FileSystem

namespace CommandLine

open Compile

variable {fs gs later : FileSystem} {root p : Path} {q : List String} {config : Config}
  {list : List Path}

/-- A directory without links in it or on the way to it, where no name holds a backslash. -/
structure IsPlainDirectory (fs : FileSystem) (root : Path) : Prop where
  sound : fs.IsSound
  names : fs.HasNames
  real : fs.IsReal root.parts
  unlinked : fs.HasNoLinksBelow root.parts
  plain : ∀ names n, fs.node? (root.parts ++ names) = some n → ∀ name ∈ names, Path.IsPlainPart name

theorem eq_absolute_of_resolve (h : fs.resolve p = .ok root) : root = .absolute root.parts := by
  obtain ⟨-, rfl, -⟩ := resolve_eq_ok_iff.mp h
  rfl

namespace IsPlainDirectory

variable (h : IsPlainDirectory fs root)
include h

theorem leadsTo_root (hroot : root = .absolute root.parts) (hdirectory : fs.isDirectory root = true) :
    fs.LeadsTo root root.parts := by
  obtain ⟨q, time, hfind⟩ := isDirectory_iff.mp hdirectory
  refine ⟨(find_leadsTo hfind (.inl rfl)).1, 0, ?_⟩
  have hleads : fs.Leads ([] ++ root.parts) 0 [] root.parts :=
    .names (fun name hname hdots => h.real.dots (hdots ▸ hname)) fun before _ hbefore =>
      h.real.link before hbefore
  rw [hroot]
  exact hleads

theorem isTree (hroot : root = .absolute root.parts) (hdirectory : fs.isDirectory root = true) :
    IsTree fs root.parts := by
  obtain ⟨q, time, hfind⟩ := isDirectory_iff.mp hdirectory
  obtain rfl := (h.leadsTo_root hroot hdirectory).unique (find_leadsTo hfind (.inl rfl))
  exact ⟨h.sound, ⟨time, find_isIn hfind⟩, h.unlinked, h.names.name⟩

end IsPlainDirectory

section Machines

variable [Machine]

/-- A workspace where links and backslashes are missing, and where a pattern that names what is in a
directory names what can be there. -/
structure IsPlainWorkspace (fs : FileSystem) (root : Path) : Prop extends IsPlainDirectory fs root where
  /-- No link is in the build directory, wherever that is. -/
  build : ∀ config s b, Config.load fs (root.child Config.fileName) = .ok config →
    config.buildDirectory = .text s → fs.LeadsTo (root.join (.ofString s)) b → fs.HasNoLinksBelow b
  patterns : ∀ config, Config.load fs (root.child Config.fileName) = .ok config →
    ∀ pattern ∈ config.sources, Sources.NamesEntries pattern

/-- What a compilation comes to that ends with documents or with an error that is told of. -/
theorem isBuilt_files {build : Path} {result : Except CompileError (List (String × Document))}
    (hapart : IsApart fs root build {s | s ∈ list})
    (hrun : Compile.files list build root fs = (result, gs))
    (hreport : ∀ e, result = .error e → ∃ text, report e = some text) :
    IsBuilt fs root build {s | s ∈ list} gs := by
  cases result with
  | ok docs => exact (files_progress hapart hrun).toIsBuilt
  | error e =>
    obtain ⟨text, htext⟩ := hreport e rfl
    obtain ⟨before, s, after, docs, mid, rfl, hbefore, hturn⟩ := exists_turn_of_error hrun
    have hmore : {t | t ∈ before} ⊆ {t | t ∈ before ++ s :: after} :=
      fun t ht => List.mem_append_left _ ht
    have hbuilt := (files_progress (hapart.mono hmore) hbefore).toIsBuilt
    obtain ⟨rfl, -⟩ := filesInto_singleton_error hbuilt hturn htext
    exact hbuilt.mono hmore

/-! The sources of a workspace. -/

section Sources

variable {s : String} {real : Path} (h : IsPlainWorkspace fs root)
  (hshallow : Glob.IsShallow fs root root.parts)
  (hroot : root = .absolute root.parts) (hdirectory : fs.isDirectory root = true)
  (hload : Config.load fs (root.child Config.fileName) = .ok config)
  (hbuild : config.buildDirectory = .text s)
  (hreal : fs.resolve (root.join (.ofString s)) = .ok real)
  (hfiles : Sources.files fs root config = .ok list)
include h hshallow hroot hdirectory hload hbuild hreal hfiles

/-- A source is a file below the root that is not in the build directory. -/
theorem exists_source {t : Path} (ht : t ∈ list) : ∃ names, t = .absolute (root.parts ++ names) ∧
    Sources.IsOutside fs real (root.parts ++ names) := by
  have htree := h.isTree hroot hdirectory
  obtain ⟨-, hpatterns⟩ := Sources.isPattern_of_files hfiles
  have hbuildDirectory : Sources.buildDirectory fs root config.buildDirectory = .ok real := by
    rw [hbuild, Sources.buildDirectory, hreal]
    rfl
  have hleads : fs.IsDirectory root root.parts := htree.isDirectory hshallow.room hroot
  obtain ⟨places, -, hplaces, hmem⟩ := Sources.files_eq_ok htree hshallow hleads (fun pattern hpattern =>
    ⟨hpatterns pattern hpattern, h.patterns config hload pattern hpattern⟩) hbuildDirectory
  obtain rfl := Except.ok.inj (hfiles.symm.trans hplaces)
  obtain ⟨names, hnames, rfl⟩ := List.mem_map.mp ht
  refine ⟨names, ?_, ((hmem names).mp hnames).2⟩
  rw [hroot]
  rfl

/-- Each source is its own real path. -/
theorem resolve_source {t : Path} (ht : t ∈ list) : ∃ names bytes time,
    t = .absolute (root.parts ++ names) ∧
      fs.find true t = .ok (.node (root.parts ++ names) (.file bytes time)) ∧
      fs.resolve t = .ok t ∧ real.behind? t = none := by
  obtain ⟨names, rfl, ⟨bytes, time, hfile⟩, hout⟩ :=
    exists_source h hshallow hroot hdirectory hload hbuild hreal hfiles ht
  have htree := h.isTree hroot hdirectory
  have hfind : fs.find true (.absolute (root.parts ++ names)) =
      .ok (.node (root.parts ++ names) (.file bytes time)) := by
    have hbelow : root.below names = .absolute (root.parts ++ names) := by
      rw [hroot]
      rfl
    rw [← hbelow]
    exact htree.find_node hshallow.room (htree.isDirectory hshallow.room hroot) hfile (.inr rfl)
  exact ⟨names, bytes, time, rfl, hfind,
    h.sound.resolve_of_leadsTo (find_leadsTo hfind (.inl rfl)), hout⟩

theorem isApart_sources : IsApart fs root (root.join (.ofString s)) {t | t ∈ list} where
  sound := h.sound
  plain t ht p q parts hp hq hparts := by
    obtain ⟨names, bytes, time, rfl, hfind, hresolve, -⟩ :=
      resolve_source h hshallow hroot hdirectory hload hbuild hreal hfiles ht
    obtain rfl := Except.ok.inj (hresolve.symm.trans hp)
    have hq' := h.sound.resolve_of_leadsTo (h.leadsTo_root hroot hdirectory)
    obtain rfl := Except.ok.inj (hq'.symm.trans hq)
    have hnames := List.append_cancel_left (congrArg Path.parts (Path.eq_of_behind? hparts))
    subst hnames
    exact h.plain names _ (find_isIn hfind)
  outside t ht b r hb hr := by
    obtain ⟨names, bytes, time, rfl, hfind, -, hout⟩ :=
      resolve_source h hshallow hroot hdirectory hload hbuild hreal hfiles ht
    obtain rfl := hr.unique (find_leadsTo hfind (.inl rfl))
    obtain rfl := Except.ok.inj ((h.sound.resolve_of_leadsTo hb).symm.trans hreal)
    rintro ⟨more, -, hmore⟩
    have hplace : root.parts ++ names = b ++ more := hmore
    rw [hplace] at hout
    cases hout.symm.trans (Path.behind?_append (.absolute b) more)
  unlinked t _ k b q _ hb _ hbelow := h.build config s b hload hbuild hb q hbelow

/-- No null character is on the path of an artifact. -/
theorem hasNull_artifact {t : Path} {k : String} (hk : HasKey fs root {t | t ∈ list} t k) :
    (artifact (root.join (.ofString s)) k).hasNull = false := by
  have hbuildNull : (root.join (.ofString s)).hasNull = false := (resolve_eq_ok_iff.mp hreal).1
  obtain ⟨names, bytes, time, rfl, hfind, hresolve, -⟩ :=
    resolve_source h hshallow hroot hdirectory hload hbuild hreal hfiles hk.1
  obtain ⟨p, q, parts, hp, hq, hparts, hne, -, rfl⟩ := exists_parts_of_key hk.2
  have hplain : Path.IsPlain parts := ⟨hne,
    (isApart_sources h hshallow hroot hdirectory hload hbuild hreal hfiles).plain _ hk.1 p q parts
        hp hq hparts⟩
  obtain rfl := Except.ok.inj (hresolve.symm.trans hp)
  have hq' := h.sound.resolve_of_leadsTo (h.leadsTo_root hroot hdirectory)
  obtain rfl := Except.ok.inj (hq'.symm.trans hq)
  obtain rfl := List.append_cancel_left (congrArg Path.parts (Path.eq_of_behind? hparts))
  have hnull := h.names.name _ _ (find_isIn hfind)
  rw [artifact_eq_below hplain]
  refine Path.hasNull_eq_false_iff.mpr fun part hpart => ?_
  rcases List.mem_append.mp hpart with hpart | hpart
  · exact Path.hasNull_eq_false_iff.mp hbuildNull part hpart
  have hnames (name : String) (hname : name ∈ names) : '\x00' ∉ name.toList :=
    Path.hasNull_eq_false_iff.mp hnull name (List.mem_append_right _ hname)
  rcases List.mem_append.mp hpart with hpart | hpart
  · exact hnames part (List.dropLast_subset _ hpart)
  · rw [List.mem_singleton.mp hpart, String.toList_append, List.mem_append, not_or]
    have hlast : names.getLastD "" ∈ names := by
      rw [List.getLastD_eq_getLast?, List.getLast?_eq_some_getLast hne]
      exact List.getLast_mem hne
    exact ⟨fun hmem => hnames _ hlast ((Path.toList_stem_isPrefix _).subset hmem), by decide⟩

/-- What compiling leaves is a tree below the root. -/
theorem isTree_of_isBuilt (hbuilt : IsBuilt fs root (root.join (.ofString s)) {t | t ∈ list} gs)
    (halike : IsAlike gs later) : IsTree later root.parts := by
  have hextends := hbuilt.toExtends.trans halike.toExtends
  have htree := h.isTree hroot hdirectory
  refine ⟨halike.sound, hextends.grows.isDirectoryAt htree.root, fun q hq hlink =>
    h.unlinked q hq ((hextends.links.isLink q).mp hlink), fun q n hn => ?_⟩
  cases hold : fs.node? q with
  | some n' => exact h.names.name q n' hold
  | none =>
    have hnew : ∃ m, gs.node? q = some m := by
      have hsame := halike.node q
      rw [hn] at hsame
      generalize gs.node? q = m at hsame
      cases hsame <;> exact ⟨_, rfl⟩
    obtain ⟨m, hm⟩ := hnew
    rcases hbuilt.node q with hmade | ⟨-, t, k, -, hk, hleads, -⟩
    · rw [hold, hm] at hmade
      cases hmade with
      | made hway =>
        obtain ⟨t, k, hk, hcomes⟩ := hway
        exact h.names.comesBy h.sound
          (hasNull_artifact h hshallow hroot hdirectory hload hbuild hreal hfiles hk) hcomes.of_parent
    · exact h.names.comesBy h.sound
        (hasNull_artifact h hshallow hroot hdirectory hload hbuild hreal hfiles hk) hleads.comesBy

/-- No artifact is among the sources. -/
theorem sources_again (hbuilt : IsBuilt fs root (root.join (.ofString s)) {t | t ∈ list} gs)
    (halike : IsAlike gs later) (hlater : Glob.IsShallow later root root.parts) :
    Sources.files later root config = .ok list := by
  have hextends := hbuilt.toExtends.trans halike.toExtends
  have hapart := isApart_sources h hshallow hroot hdirectory hload hbuild hreal hfiles
  have hbuildLater : later.resolve (root.join (.ofString s)) = .ok real := by
    rcases hbuilt.begun with rfl | ⟨b, hb⟩
    · exact halike.resolve hreal
    · obtain ⟨time, hfind⟩ := hb.grows halike.toExtends.grows
      have hleads := find_leadsTo hfind (.inl rfl)
      have hleads' := hextends.links.leadsTo.mp hleads
      rw [halike.sound.resolve_of_leadsTo hleads, ← h.sound.resolve_of_leadsTo hleads', hreal]
  rw [hroot] at hfiles ⊢
  refine Sources.files_of_grows (h.isTree hroot hdirectory)
    (isTree_of_isBuilt h hshallow hroot hdirectory hload hbuild hreal (hroot ▸ hfiles) hbuilt halike)
    hextends.grows (hroot ▸ hlater) (h.patterns config hload) (fun build hb => ?_) hfiles
  have heq : Sources.buildDirectory fs (.absolute root.parts) config.buildDirectory = .ok real := by
    rw [hbuild, ← hroot, Sources.buildDirectory, hreal]
    rfl
  obtain rfl := Except.ok.inj (heq.symm.trans hb)
  refine ⟨?_, fun q bytes time hq hout => ?_⟩
  · rw [hbuild, ← hroot, Sources.buildDirectory, hbuildLater]
    rfl
  · have hq := (halike.sameFile q bytes time).mp hq
    rcases hbuilt.node q with hmade | ⟨-, t, k, -, hk, hleads, -⟩
    · exact ⟨_, (hmade.sameFile bytes time).mp hq⟩
    · obtain ⟨b, names, hb, -, -, -, -, rfl⟩ := hapart.artifact_below ⟨⟨t, hk⟩, hleads⟩
      obtain rfl := Except.ok.inj ((h.sound.resolve_of_leadsTo hb).symm.trans hreal)
      cases hout.symm.trans (Path.behind?_append (.absolute b) names)

/-- No artifact is the configuration. -/
theorem load_again (hbuilt : IsBuilt fs root (root.join (.ofString s)) {t | t ∈ list} gs)
    (halike : IsAlike gs later) : Config.load later (root.child Config.fileName) = .ok config := by
  have hapart := isApart_sources h hshallow hroot hdirectory hload hbuild hreal hfiles
  obtain ⟨q, bytes, time, hfind⟩ := exists_find_of_load hload
  have hleads : fs.LeadsTo (root.child Config.fileName) q := find_leadsTo hfind (.inl rfl)
  obtain rfl : q = root.parts ++ [Config.fileName] :=
    hleads.unique ((h.leadsTo_root hroot hdirectory).below (by decide)
      (h.unlinked.areLinkFree [Config.fileName]) hleads.1)
  have hsame : SameFile fs gs (root.parts ++ [Config.fileName]) := by
    refine hbuilt.sameFile fun t k hk hartifact => ?_
    obtain ⟨parts, hplain, rfl, hdots, hlinks⟩ := hapart.exists_parts hk
    rw [artifact_eq_below hplain] at hartifact
    obtain ⟨b, -, heq⟩ := hartifact.of_below hdots hlinks
    have hlast := congrArg List.getLast? heq
    rw [artifactNames, ← List.append_assoc, List.getLast?_concat, List.getLast?_concat] at hlast
    -- the name of an artifact is longer
    have hlength := congrArg (fun name => name.toList.length) (Option.some.inj hlast)
    simp only [String.toList_append, List.length_append] at hlength
    have hname : Config.fileName.toList.length = 12 := rfl
    have hsuffix : Artifact.suffix.toList.length = 13 := rfl
    omega
  have hfind' := find_file_of_grows halike.toExtends.grows (halike.sameFile _)
    (find_file_of_grows hbuilt.grows hsame hfind)
  rw [← hload]
  simp only [Config.load, readText, FileSystem.read, stat, hfind, hfind']

/-- What was compiled is found again, and compiled again to the same. -/
theorem compiled_again {result : Except CompileError (List (String × Document))}
    (hcalls : Artifact.maxDepth ≤ Machine.calls)
    (hrun : Compile.files list (root.join (.ofString s)) root fs = (result, gs))
    (hreport : ∀ e, result = .error e → ∃ text, report e = some text)
    (halike : IsAlike gs later) (hlater : Glob.IsShallow later root root.parts) :
    (Extends fs later ∧ Config.load later (root.child Config.fileName) = .ok config) ∧
      Sources.files later root config = .ok list ∧
        ∃ gs', Compile.files list (root.join (.ofString s)) root later = (result, gs') := by
  have hapart := isApart_sources h hshallow hroot hdirectory hload hbuild hreal hfiles
  have hbuilt := isBuilt_files hapart hrun hreport
  have hisFile (t : Path) (ht : t ∈ list) : fs.isFile t = true := by
    obtain ⟨_, _, _, -, hfind, -⟩ :=
      resolve_source h hshallow hroot hdirectory hload hbuild hreal hfiles ht
    exact isFile_iff.mpr ⟨_, _, _, hfind⟩
  refine ⟨⟨hbuilt.toExtends.trans halike.toExtends, ?_⟩, ?_, _, Prod.ext ?_ rfl⟩
  · exact load_again h hshallow hroot hdirectory hload hbuild hreal hfiles hbuilt halike
  · exact sources_again h hshallow hroot hdirectory hload hbuild hreal hfiles hbuilt halike hlater
  · exact Compile.files_again hapart hisFile ⟨_, h.leadsTo_root hroot hdirectory⟩ hcalls hrun
      hreport halike

end Sources

omit [Machine] in
/-- What was found does not depend on the files. -/
theorem conclude_eq (results : List (String × Validation.Result)) (fs gs : FileSystem) :
    conclude results gs = { conclude results fs with files := gs } := by
  unfold conclude
  dsimp only
  split <;> rfl

omit [Machine] in
/-- Validation comes to its end. -/
theorem validateAll_eq (documents : List (String × Document)) (fs : FileSystem) :
    validateAll documents fs = conclude (Validation.verdicts documents) fs := by
  rw [validateAll, Validation.validateWorkspace_eq]

/-- Checking adds to what is there. -/
theorem extends_checkSources (h : fs.IsSound) (root : Path) (config : Config) :
    Extends fs (checkSources root config fs).files := by
  have hcompiled {sources : List Path} {build : Path} {gs : FileSystem}
      {result : Except CompileError (List (String × Document))}
      (hrun : Compile.files sources build root fs = (result, gs)) : Extends fs gs := by
    have hextends := extends_filesInto build root sources [] h
    rwa [show filesInto build root sources [] fs = _ from hrun] at hextends
  unfold checkSources
  split
  · exact .refl h
  · exact .refl h
  · dsimp only [Outcome.printed]
    split
    · rename_i hresult
      exact hcompiled hresult
    · rename_i hresult
      exact hcompiled hresult
    · rename_i docs gs hresult
      rw [validateAll_eq, conclude_eq _ gs gs]
      exact hcompiled hresult

theorem extends_check {raw : String} (h : fs.IsSound) : Extends fs (check raw fs).files := by
  unfold check inDirectory
  split
  · exact .refl h
  dsimp only
  split
  · exact .refl h
  · split
    · exact .refl h
    · exact .refl h
    · split
      · exact .refl h
      · exact .refl h
      · exact extends_checkSources h _ _
  · exact .refl h

/-- Compiling and validating the sources once more. -/
theorem checkSources_again {code : Nat} (h : IsPlainWorkspace fs root)
    (hroot : root = .absolute root.parts) (hdirectory : fs.isDirectory root = true)
    (hload : Config.load fs (root.child Config.fileName) = .ok config)
    (hcode : (checkSources root config fs).result = .ok code)
    (halike : IsAlike (checkSources root config fs).files later)
    (hlater : Glob.IsShallow later root root.parts) (hcalls : Artifact.maxDepth ≤ Machine.calls) :
    Extends fs later ∧ Config.load later (root.child Config.fileName) = .ok config ∧
      (checkSources root config later).result = .ok code ∧
      (checkSources root config later).output = (checkSources root config fs).output ∧
      (checkSources root config later).errors = (checkSources root config fs).errors := by
  have hshallow : Glob.IsShallow fs root root.parts :=
    hlater.of_grows ((extends_checkSources h.sound root config).trans halike.toExtends).grows
  cases hfiles : Sources.files fs root config with
  | error f =>
    simp only [checkSources, hfiles] at hcode
    cases hcode
  | ok list =>
    obtain ⟨s, real, hbuild, hreal⟩ := Sources.exists_build_of_files hfiles
    cases hrun : Compile.files list (root.join (.ofString s)) root fs with
    | mk result gs =>
      have hagain (hreport : ∀ e, result = .error e → ∃ text, report e = some text)
          (halike : IsAlike gs later) :=
        compiled_again h hshallow hroot hdirectory hload hbuild hreal hfiles hcalls hrun hreport
          halike hlater
      cases list with
      | nil =>
        -- nothing is compiled where there are no sources
        obtain ⟨rfl, rfl⟩ := Prod.mk.inj hrun
        simp only [checkSources, hfiles] at hcode halike ⊢
        obtain ⟨hkept, hfiles', -⟩ := hagain (fun e he => by cases he) halike
        rw [hfiles']
        exact ⟨hkept.1, hkept.2, hcode, rfl, rfl⟩
      | cons t rest =>
        simp only [checkSources, hfiles, hbuild, hrun] at hcode halike ⊢
        cases result with
        | ok docs =>
          simp only [validateAll_eq] at hcode halike ⊢
          have halike' : IsAlike (conclude (Validation.verdicts docs) gs).files later := halike
          have hsame := conclude_eq (Validation.verdicts docs) gs
          rw [hsame gs] at halike'
          obtain ⟨hkept, hfiles', gs', hrun'⟩ := hagain (fun e he => by cases he) halike'
          rw [hfiles']
          simp only [hrun', Outcome.printed] at hcode ⊢
          rw [hsame gs']
          exact ⟨hkept.1, hkept.2, hcode, rfl, rfl⟩
        | error e =>
          cases e with
          | fault f => cases hcode
          | _ =>
            obtain ⟨hkept, hfiles', gs', hrun'⟩ := hagain (fun e he => by
              cases he
              exact ⟨_, rfl⟩) halike
            rw [hfiles']
            simp only [hrun'] at hcode ⊢
            exact ⟨hkept.1, hkept.2, hcode, rfl, rfl⟩

theorem check_eq_checkSources {raw : String} (hresolve : fs.resolve (.ofString raw) = .ok root)
    (hdirectory : fs.isDirectory root = true)
    (hload : Config.load fs (root.child Config.fileName) = .ok config) :
    check raw fs = checkSources root config fs := by
  obtain ⟨q, bytes, time, hfind⟩ := exists_find_of_load hload
  have hconfig : fs.hasPath (root.child Config.fileName) = true := by
    rw [hasPath, stat, hfind]
  rw [check, inDirectory, hresolve]
  dsimp only
  rw [ask_isDirectory hdirectory, hdirectory]
  dsimp only
  rw [ask_of_find hfind, hconfig]
  dsimp only
  rw [hload]

/-- Without a directory and a configuration in it nothing is written, and what is printed depends on
what is there only. -/
theorem check_of_no_config {raw : String} (hresolve : fs.resolve (.ofString raw) = .ok root)
    (hnone : ¬ (fs.isDirectory root = true ∧
      ∃ config, Config.load fs (root.child Config.fileName) = .ok config)) :
    (check raw fs).files = fs ∧
      ∀ later, IsAlike fs later → check raw later = { check raw fs with files := later } := by
  suffices hsame : (check raw fs).files = fs ∧ ∀ later, later.resolve (.ofString raw) = .ok root →
      later.ask root (later.isDirectory root) = fs.ask root (fs.isDirectory root) →
      later.ask (root.child Config.fileName) (later.hasPath (root.child Config.fileName)) =
        fs.ask (root.child Config.fileName) (fs.hasPath (root.child Config.fileName)) →
      Config.load later (root.child Config.fileName) = Config.load fs (root.child Config.fileName) →
      check raw later = { check raw fs with files := later } from
    ⟨hsame.1, fun later halike => hsame.2 later (halike.resolve hresolve)
      (by rw [halike.ask, halike.isDirectory]) (by rw [halike.ask, halike.hasPath])
      (halike.load _)⟩
  unfold check inDirectory
  rw [hresolve]
  dsimp only
  rcases hdirectory : fs.ask root (fs.isDirectory root) with e | _ | _
  case error | ok.false =>
    refine ⟨rfl, fun later hresolve' hdirectory' _ _ => ?_⟩
    rw [hresolve']
    dsimp only
    rw [hdirectory']
    rfl
  case ok.true =>
    rcases hpath : fs.ask (root.child Config.fileName) (fs.hasPath (root.child Config.fileName)) with
      e | _ | _
    case error | ok.false =>
      refine ⟨rfl, fun later hresolve' hdirectory' hpath' _ => ?_⟩
      rw [hresolve']
      dsimp only
      rw [hdirectory']
      dsimp only
      rw [hpath']
      rfl
    case ok.true =>
      cases hload : Config.load fs (root.child Config.fileName) with
      | ok config => exact absurd ⟨(ask_eq_ok.mp hdirectory).2.symm, config, hload⟩ hnone
      | error e =>
        cases e <;>
        · refine ⟨rfl, fun later hresolve' hdirectory' hpath' hload' => ?_⟩
          rw [hresolve']
          dsimp only
          rw [hdirectory']
          dsimp only
          rw [hpath']
          dsimp only
          rw [hload']
          rfl

/-- A check that ends with an exit code ends with the same one when the files and directories are as
it left them, and prints the same. -/
theorem check_alike {raw : String} {code : Nat}
    (h : ∀ root, fs.resolve (.ofString raw) = .ok root → IsPlainWorkspace fs root)
    (hcode : (check raw fs).result = .ok code) (halike : IsAlike (check raw fs).files later)
    (hlater : ∀ root, fs.resolve (.ofString raw) = .ok root → Glob.IsShallow later root root.parts)
    (hcalls : Artifact.maxDepth ≤ Machine.calls) :
    (check raw later).result = .ok code ∧ (check raw later).output = (check raw fs).output ∧
      (check raw later).errors = (check raw fs).errors := by
  cases hresolve : fs.resolve (.ofString raw) with
  | error e =>
    rw [check, inDirectory, hresolve] at hcode
    cases hcode
  | ok root =>
    by_cases hconfig : fs.isDirectory root = true ∧
        ∃ config, Config.load fs (root.child Config.fileName) = .ok config
    · obtain ⟨hdirectory, config, hload⟩ := hconfig
      rw [check_eq_checkSources hresolve hdirectory hload] at hcode halike ⊢
      obtain ⟨hextends, hload', hagain⟩ := checkSources_again (h root hresolve)
        (eq_absolute_of_resolve hresolve) hdirectory hload hcode halike (hlater root hresolve) hcalls
      obtain ⟨hresolve', hdirectory'⟩ := hextends.resolve hresolve hdirectory
      rwa [check_eq_checkSources hresolve' hdirectory' hload']
    · obtain ⟨hfiles, hsame⟩ := check_of_no_config hresolve hconfig
      rw [hfiles] at halike
      rw [hsame later halike]
      exact ⟨hcode, rfl, rfl⟩

omit [Machine] in
theorem isAlike_atTime (h : fs.IsSound) (time : Int) : IsAlike fs (fs.atTime time) where
  workingDirectory := rfl
  node q := by
    have hmade := made_atTime fs time q
    generalize fs.node? q = n, (fs.atTime time).node? q = n' at hmade
    cases hmade with
    | same => exact .same _
    | touched => exact .directory _ _
    | made hnew => exact hnew.elim
  sound := h.atTime time

end Machines

/-! Examples. -/

theorem isPlainDirectory_of_nodes (hsound : fs.IsSound) (hdots : ".." ∉ root.parts)
    (hnodes : ∀ e ∈ fs.nodes, (Path.absolute e.1).hasNull = false ∧
      (root.parts <+: e.1 → ∀ name ∈ e.1.drop root.parts.length, Path.IsPlainPart name))
    (hlinks : ∀ e ∈ fs.nodes, ∀ target, e.2 = .link target →
      (Path.ofString target).hasNull = false ∧ ¬ e.1 <+: root.parts ∧ ¬ root.parts <+: e.1) :
    IsPlainDirectory fs root where
  sound := hsound
  names := by
    refine ⟨fun q n hn => ?_, fun q target hn => (hlinks _ (IsLink.mem_nodes hn) target rfl).1⟩
    by_cases hq : q = []
    · rw [hq]
      rfl
    · exact (hnodes _ (mem_nodes hn hq)).1
  real := by
    refine ⟨hdots, ?_⟩
    rintro r hr ⟨target, hn⟩
    exact (hlinks _ (IsLink.mem_nodes hn) target rfl).2.1 hr
  unlinked := by
    rintro q ⟨names, -, rfl⟩ ⟨target, hn⟩
    exact (hlinks _ (IsLink.mem_nodes hn) target rfl).2.2 (List.prefix_append _ _)
  plain names n hn name hname := by
    have hmem := mem_nodes hn (List.append_ne_nil_of_right_ne_nil _ (List.ne_nil_of_mem hname))
    exact (hnodes _ hmem).2 (List.prefix_append _ _) name (by simpa using hname)

/-- A workspace `w` with a configuration, the source `a` and more. -/
def workspaceOf (config : List Char) (more : List (List String × FileNode)) : FileSystem where
  nodes := (["w"], .directory 0) :: (["w", ".gqlast.yaml"], .file (Utf8.encode config) 0) ::
    (["w", "a.graphql"], .file (Utf8.encode exampleText) 0) :: more
  workingDirectory := ["w"]
  now := 0

theorem workspaceOf_plain (config : List Char) :
    IsPlainDirectory (workspaceOf config []) (.absolute ["w"]) ∧ (workspaceOf config []).HasNoLinks := by
  have hnames : ∀ q ∈ [["w"], ["w", ".gqlast.yaml"], ["w", "a.graphql"]], IsEntryName (q.getLastD "") ∧
      (Path.absolute q).hasNull = false ∧ ∀ name ∈ q.drop 1, Path.IsPlainPart name := by decide
  have hnodes : ∀ e ∈ (workspaceOf config []).nodes, (∀ target, e.2 ≠ .link target) ∧
      (workspaceOf config []).IsDirectoryAt e.1.dropLast ∧ IsEntryName (e.1.getLastD "") ∧
      (Path.absolute e.1).hasNull = false ∧ ∀ name ∈ e.1.drop 1, Path.IsPlainPart name := by
    rintro e (_ | ⟨_, _ | ⟨_, _ | ⟨_, he⟩⟩⟩)
    · exact ⟨nofun, isDirectoryAt_root _, hnames ["w"] (by simp)⟩
    · exact ⟨nofun, ⟨0, rfl⟩, hnames ["w", ".gqlast.yaml"] (by simp)⟩
    · exact ⟨nofun, ⟨0, rfl⟩, hnames ["w", "a.graphql"] (by simp)⟩
    · cases he
  have hsound : (workspaceOf config []).IsSound :=
    isSound_of_nodes ⟨0, rfl⟩ fun e he => ⟨(hnodes e he).2.1, (hnodes e he).2.2.1⟩
  exact ⟨isPlainDirectory_of_nodes hsound (by decide)
    (fun e he => ⟨(hnodes e he).2.2.2.1, fun _ => (hnodes e he).2.2.2.2⟩)
    fun e he target htarget => absurd htarget ((hnodes e he).1 target),
    hasNoLinks_of_nodes fun e he => (hnodes e he).1⟩

section Machines

variable [Machine]

/-- What is left when the artifact of `a` is saved in a build directory. -/
def savedIn (build : String) (fs : FileSystem) : FileSystem :=
  (Artifact.save exampleDocument (artifact ((Path.absolute ["w"]).join (.ofString build)) "a") fs).2

/-- The configuration and the sources of the workspace in the working directory. -/
def sources? (fs : FileSystem) : Option (Config × List Path) := do
  let root ← (fs.resolve (.ofString ".")).toOption
  let config ← (Config.load fs (root.child Config.fileName)).toOption
  let list ← (Sources.files fs root config).toOption
  if fs.isDirectory root ∧ root = .absolute ["w"] then some (config, list) else none

theorem sources?_eq_some_iff {list : List Path} : sources? fs = some (config, list) ↔
    fs.resolve (.ofString ".") = .ok (.absolute ["w"]) ∧ fs.isDirectory (.absolute ["w"]) = true ∧
      Config.load fs ((Path.absolute ["w"]).child Config.fileName) = .ok config ∧
      Sources.files fs (.absolute ["w"]) config = .ok list := by
  constructor
  · intro h
    simp only [sources?, Option.bind_eq_bind, Option.bind_eq_some_iff] at h
    obtain ⟨root, hroot, config', hload, list', hlist, h⟩ := h
    split at h
    case isFalse => cases h
    case isTrue hdirectory =>
      cases h
      obtain ⟨hdirectory, rfl⟩ := hdirectory
      exact ⟨eq_ok_of_toOption hroot, hdirectory, eq_ok_of_toOption hload, eq_ok_of_toOption hlist⟩
  · rintro ⟨hroot, hdirectory, hload, hfiles⟩
    simp [sources?, Except.toOption, hroot, hload, hfiles, hdirectory]

/-- A check where `a` is the only source. -/
theorem check_exampleText {build : String} (patterns : List JsonString)
    (hsources : sources? fs = some (⟨.text build, patterns⟩, [.absolute ["w", "a.graphql"]]))
    (hread : fs.read (.absolute ["w", "a.graphql"]) = .ok (Utf8.encode exampleText))
    (hkey : (key fs (.absolute ["w"]) (.absolute ["w", "a.graphql"])).toOption = some "a")
    (hstale : isFresh fs (.absolute ["w", "a.graphql"])
      (artifact ((Path.absolute ["w"]).join (.ofString build)) "a") = .ok false)
    (hsave : (Artifact.save exampleDocument
      (artifact ((Path.absolute ["w"]).join (.ofString build)) "a") fs).1.toOption = some ()) :
    check "." fs =
      .done 0 "Checking 1 GraphQL file(s)...\nNo issues found.\n" "" (savedIn build fs) := by
  have hrun : Compile.files [.absolute ["w", "a.graphql"]]
      ((Path.absolute ["w"]).join (.ofString build)) (.absolute ["w"]) fs =
        (.ok [("a", exampleDocument)], savedIn build fs) :=
    filesInto_exampleText hread hkey rfl (.inl hstale) hsave []
  have hvalid : reportLines (Validation.verdicts [("a", exampleDocument)]) = ("", "") ∧
      (Validation.verdicts [("a", exampleDocument)]).any (·.2.hasErrors) = false := by
    decide
  have hline : "Checking " ++ decimalText 1 ++ " GraphQL file(s)...\n" ++
      ("" ++ "No issues found.\n") = "Checking 1 GraphQL file(s)...\nNo issues found.\n" := by
    decide
  obtain ⟨hroot, hdirectory, hload, hfiles⟩ := sources?_eq_some_iff.mp hsources
  rw [check_eq_checkSources hroot hdirectory hload, checkSources, hfiles]
  dsimp only
  rw [hrun]
  simp only [validateAll_eq, conclude, hvalid, Bool.false_eq_true, if_false, Outcome.printed, Outcome.done,
    List.length_singleton, hline]

/-- How many sources there are is told first. -/
theorem exists_output {s : Path} {rest : List Path}
    (hsources : sources? fs = some (config, s :: rest)) : ∃ more,
      (check "." fs).output =
        "Checking " ++ decimalText (rest.length + 1) ++ " GraphQL file(s)...\n" ++ more := by
  obtain ⟨hroot, hdirectory, hload, hfiles⟩ := sources?_eq_some_iff.mp hsources
  rw [check_eq_checkSources hroot hdirectory hload, checkSources, hfiles]
  exact ⟨_, rfl⟩

theorem check_again_ne {build : String} {patterns : List JsonString} {s t : Path}
    (hcheck : check "." fs =
      .done 0 "Checking 1 GraphQL file(s)...\nNo issues found.\n" "" (savedIn build fs))
    (hagain : sources? ((savedIn build fs).atTime 1) = some (⟨.text build, patterns⟩, [s, t])) :
    (check "." fs).result = .ok 0 ∧
      (check "." ((check "." fs).files.atTime 1)).output ≠ (check "." fs).output := by
  have hfiles : (check "." fs).files = savedIn build fs := by
    rw [hcheck, Outcome.done]
  have houtput : (check "." fs).output = "Checking 1 GraphQL file(s)...\nNo issues found.\n" := by
    rw [hcheck, Outcome.done]
  refine ⟨by rw [hcheck, Outcome.done], fun heq => ?_⟩
  obtain ⟨more, hmore⟩ := exists_output hagain
  have hline : "Checking " ++ decimalText 2 ++ " GraphQL file(s)...\n" =
      "Checking 2 GraphQL file(s)...\n" := by decide
  rw [hfiles, houtput, hmore, List.length_singleton, hline] at heq
  -- the number is the tenth character
  have hnumber := congrArg (fun text => text.toList[9]?) heq
  rw [String.toList_append, List.getElem?_append_left (by decide)] at hnumber
  exact absurd hnumber (by decide)

theorem check_again_faults {build : String} {config : Config}
    (hcheck : check "." fs =
      .done 0 "Checking 1 GraphQL file(s)...\nNo issues found.\n" "" (savedIn build fs))
    (hroot : (((savedIn build fs).atTime 1).resolve (.ofString ".")).toOption = some (.absolute ["w"]))
    (hdirectory : ((savedIn build fs).atTime 1).isDirectory (.absolute ["w"]) = true)
    (hload : (Config.load ((savedIn build fs).atTime 1)
      ((Path.absolute ["w"]).child Config.fileName)).toOption = some config)
    (hfiles : (Sources.files ((savedIn build fs).atTime 1) (.absolute ["w"])
      config).toOption.isNone = true) :
    (check "." fs).result = .ok 0 ∧
      ∀ code, (check "." ((check "." fs).files.atTime 1)).result ≠ .ok code := by
  have hsaved : (check "." fs).files = savedIn build fs := by
    rw [hcheck, Outcome.done]
  refine ⟨by rw [hcheck, Outcome.done], fun code hcode => ?_⟩
  rw [hsaved, check_eq_checkSources (eq_ok_of_toOption hroot) hdirectory (eq_ok_of_toOption hload)]
    at hcode
  cases hrun : Sources.files ((savedIn build fs).atTime 1) (.absolute ["w"]) config with
  | ok list =>
    rw [hrun] at hfiles
    cases hfiles
  | error f =>
    rw [checkSources, hrun] at hcode
    cases hcode

end Machines

def plainFiles : FileSystem :=
  workspaceOf "build-directory: build\nsources: [a.graphql]\n".toList []

theorem plainFiles_sources : @sources? .usual plainFiles =
    some (⟨.text "build", [.text "a.graphql"]⟩, [.absolute ["w", "a.graphql"]]) := by decide +kernel

theorem plainFiles_isPlainWorkspace {root : Path} (hroot : plainFiles.resolve (.ofString ".") = .ok root) :
    @IsPlainWorkspace .usual plainFiles root := by
  let := Machine.usual
  obtain ⟨hw, -, hconfig, -⟩ := sources?_eq_some_iff.mp plainFiles_sources
  obtain rfl := Except.ok.inj (hroot.symm.trans hw)
  obtain ⟨hplain, hlinks⟩ : IsPlainDirectory plainFiles (.absolute ["w"]) ∧ plainFiles.HasNoLinks :=
    workspaceOf_plain _
  refine ⟨hplain, fun _ _ b _ _ _ q _ => hlinks q, fun config hload pattern hpattern => ?_⟩
  obtain rfl := Except.ok.inj (hload.symm.trans hconfig)
  obtain rfl := List.mem_singleton.mp hpattern
  show ∀ part ∈ (Path.ofString "a.graphql").parts, _
  decide

theorem plainFiles_check : @check .usual "." plainFiles =
    .done 0 "Checking 1 GraphQL file(s)...\nNo issues found.\n" "" (@savedIn .usual "build" plainFiles) :=
  @check_exampleText _ .usual _ [.text "a.graphql"] plainFiles_sources (by decide) (by decide) (by decide)
    (by decide)

/-- What the check leaves is not deep. -/
theorem plainFiles_isShallow :
    @Glob.IsShallow .usual (@check .usual "." plainFiles).files (.absolute ["w"]) ["w"] := by
  have hfiles : (@check .usual "." plainFiles).files = @savedIn .usual "build" plainFiles := by
    rw [plainFiles_check, Outcome.done]
  rw [hfiles]
  exact @Glob.isShallow_of_nodes _ _ .usual _ (by decide) (by decide +kernel)

/-- One of the patterns goes through the build directory, which is not there at first. -/
def goingUpFiles : FileSystem :=
  workspaceOf "build-directory: build\nsources: [a.graphql, build/../a.graphql]\n".toList []

theorem goingUpFiles_differs :
    letI := Machine.usual
    (check "." goingUpFiles).result = .ok 0 ∧
      (check "." ((check "." goingUpFiles).files.atTime 1)).output ≠
        (check "." goingUpFiles).output := by
  let := Machine.usual
  have hcheck : check "." goingUpFiles =
      .done 0 "Checking 1 GraphQL file(s)...\nNo issues found.\n" "" (savedIn "build" goingUpFiles) :=
    check_exampleText [.text "a.graphql", .text "build/../a.graphql"] (by decide +kernel)
      (by decide) (by decide) (by decide) (by decide)
  have hagain : sources? ((savedIn "build" goingUpFiles).atTime 1) =
      some (⟨.text "build", [.text "a.graphql", .text "build/../a.graphql"]⟩,
        [.absolute ["w", "a.graphql"], .absolute ["w", "build", "..", "a.graphql"]]) := by
    decide +kernel
  exact check_again_ne hcheck hagain

/-- The build directory is not in the workspace, and a link in it leads back. -/
def linkedOutFiles : FileSystem :=
  workspaceOf "build-directory: ../out\nsources: [a.graphql, b.graphql]\n".toList
    [(["out"], .directory 0), (["out", "a.graphql.json"], .link "../w/b.graphql")]

theorem linkedOutFiles_differs :
    letI := Machine.usual
    (check "." linkedOutFiles).result = .ok 0 ∧
      (check "." ((check "." linkedOutFiles).files.atTime 1)).output ≠
        (check "." linkedOutFiles).output := by
  let := Machine.usual
  have hcheck : check "." linkedOutFiles =
      .done 0 "Checking 1 GraphQL file(s)...\nNo issues found.\n" "" (savedIn "../out" linkedOutFiles) :=
    check_exampleText [.text "a.graphql", .text "b.graphql"] (by decide +kernel) (by decide)
      (by decide) (by decide) (by decide)
  have hagain : sources? ((savedIn "../out" linkedOutFiles).atTime 1) =
      some (⟨.text "../out", [.text "a.graphql", .text "b.graphql"]⟩,
        [.absolute ["w", "a.graphql"], .absolute ["w", "b.graphql"]]) := by
    decide +kernel
  exact check_again_ne hcheck hagain

/-- A pattern with a name that nothing can have in the build directory. -/
def longPattern : String := String.ofList ("build/".toList ++ List.replicate 256 'x')

set_option maxRecDepth 5000 in
theorem ofText_longPattern : Glob.ofText longPattern = .ok [.name "build", .name (nameOfSize 256)] := by
  unfold longPattern
  generalize hletters : List.replicate 256 'x' = letters
  have hpath : Path.ofString (String.ofList ("build/".toList ++ letters)) =
      ⟨"", ["build", nameOfSize 256]⟩ := by
    rw [Path.ofString, String.toList_ofList, ← hletters]
    decide
  have hbuild : Glob.component "build" = .ok (.name "build") := by decide
  have hne : String.ofList ("build/".toList ++ letters) ≠ "" := hletters ▸ by decide
  have hlast : ("build/".toList ++ letters).getLast? ≠ some '/' := hletters ▸ by decide
  simp only [Glob.ofText, hpath, String.toList_ofList, if_neg hne, if_neg hlast, List.mapM_cons,
    List.mapM_nil, hbuild, Glob.component_nameOfSize]
  rfl

/-- What is not there is asked for in the build directory, which is not there at first. -/
def longNameFiles : FileSystem :=
  workspaceOf ("build-directory: build\nsources: [a.graphql, build/".toList ++
    List.replicate 256 'x' ++ "]\n".toList) []

theorem selected_longPattern [Machine] (fs : FileSystem) :
    Sources.selected fs (.absolute ["w"]) (.text longPattern) =
      .ok (Glob.select fs [.name "build", .name (nameOfSize 256)] (.absolute ["w"])) := by
  rw [Sources.selected, ofText_longPattern]
  rfl

/-- The configuration, and what its first pattern selects, before the first check and after it. -/
theorem longNameFiles_load :
    letI := Machine.usual
    ∀ fs ∈ [longNameFiles, (savedIn "build" longNameFiles).atTime 1],
    (Config.load fs ((Path.absolute ["w"]).child Config.fileName)).toOption =
        some ⟨.text "build", [.text "a.graphql", .text longPattern]⟩ ∧
      (Sources.selected fs (.absolute ["w"]) (.text "a.graphql")).toOption =
        some [.ok (.absolute ["w", "a.graphql"])] := by
  decide +kernel

theorem longNameFiles_sources : @sources? .usual longNameFiles =
    some (⟨.text "build", [.text "a.graphql", .text longPattern]⟩, [.absolute ["w", "a.graphql"]]) := by
  let := Machine.usual
  obtain ⟨hload, hselected⟩ := longNameFiles_load longNameFiles (by simp)
  have hfiles : (Sources.files longNameFiles (.absolute ["w"])
      ⟨.text "build", [.text "a.graphql", .text longPattern]⟩).toOption =
        some [.absolute ["w", "a.graphql"]] := by
    simp only [Sources.files, List.foldlM_cons, List.foldlM_nil, Sources.addSelected,
      selected_longPattern, eq_ok_of_toOption hselected]
    decide
  exact sources?_eq_some_iff.mpr ⟨eq_ok_of_toOption (by decide), by decide, eq_ok_of_toOption hload,
    eq_ok_of_toOption hfiles⟩

theorem longNameFiles_fault :
    letI := Machine.usual
    (Sources.files ((savedIn "build" longNameFiles).atTime 1) (.absolute ["w"])
      ⟨.text "build", [.text "a.graphql", .text longPattern]⟩).toOption.isNone = true := by
  let := Machine.usual
  have hselect : Glob.select ((savedIn "build" longNameFiles).atTime 1)
      [.name "build", .name (nameOfSize 256)] (.absolute ["w"]) = [.error .nameTooLong] := by
    have hroot : ((savedIn "build" longNameFiles).atTime 1).isDirectory (.absolute ["w"]) = true := by
      decide
    have hbuild : ((savedIn "build" longNameFiles).atTime 1).isDirectory
        ((Path.absolute ["w"]).child "build") = true := by decide
    rw [Glob.select, ask_isDirectory hroot, hroot, Glob.selectIf, Glob.selectFrom,
      List.isEmpty_cons, if_neg Bool.false_ne_true, ask_isDirectory hbuild, hbuild, Glob.selectIf]
    exact Glob.selectFrom_tooLong hbuild (nameOfSize_ne_dots 256) (notMem_nameOfSize (by decide) 256)
      (by rw [utf8ByteSize_nameOfSize]; decide)
  obtain ⟨-, hselected⟩ := longNameFiles_load ((savedIn "build" longNameFiles).atTime 1) (by simp)
  simp only [Sources.files, List.foldlM_cons, List.foldlM_nil, Sources.addSelected,
    selected_longPattern, hselect, eq_ok_of_toOption hselected]
  decide

theorem longNameFiles_differs :
    letI := Machine.usual
    (check "." longNameFiles).result = .ok 0 ∧
      ∀ code, (check "." ((check "." longNameFiles).files.atTime 1)).result ≠ .ok code := by
  let := Machine.usual
  have hcheck : check "." longNameFiles =
      .done 0 "Checking 1 GraphQL file(s)...\nNo issues found.\n" "" (savedIn "build" longNameFiles) :=
    check_exampleText [.text "a.graphql", .text longPattern] longNameFiles_sources
      (by decide) (by decide) (by decide) (by decide)
  exact check_again_faults hcheck (by decide) (by decide)
    (longNameFiles_load _ (by simp)).1 longNameFiles_fault

/-- A machine that grants few calls. -/
@[reducible]
def fewCalls : Machine := ⟨4, 2 ^ 32⟩

/-- Two stars stand for the build directory too, which is not there at first. -/
def deepFiles : FileSystem :=
  workspaceOf "build-directory: x/x/x/x/x\nsources: [./**/*.graphql]\n".toList []

theorem deepFiles_differs :
    letI := fewCalls
    (check "." deepFiles).result = .ok 0 ∧
      ∀ code, (check "." ((check "." deepFiles).files.atTime 1)).result ≠ .ok code := by
  let := fewCalls
  have hcheck : check "." deepFiles =
      .done 0 "Checking 1 GraphQL file(s)...\nNo issues found.\n" "" (savedIn "x/x/x/x/x" deepFiles) :=
    check_exampleText [.text "./**/*.graphql"] (by decide +kernel) (by decide) (by decide) (by decide)
      (by decide +kernel)
  have hload : (Config.load ((savedIn "x/x/x/x/x" deepFiles).atTime 1)
      ((Path.absolute ["w"]).child Config.fileName)).toOption =
        some ⟨.text "x/x/x/x/x", [.text "./**/*.graphql"]⟩ := by decide +kernel
  have hfiles : (Sources.files ((savedIn "x/x/x/x/x" deepFiles).atTime 1) (.absolute ["w"])
      ⟨.text "x/x/x/x/x", [.text "./**/*.graphql"]⟩).toOption.isNone = true := by decide +kernel
  exact check_again_faults hcheck (by decide +kernel) (by decide +kernel) hload hfiles

end CommandLine

end GraphQLDoc
