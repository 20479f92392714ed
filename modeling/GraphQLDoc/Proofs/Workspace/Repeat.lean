import GraphQLDoc.Proofs.Workspace.Failure

/-!
Compiling once more. Where nothing is gone and all files are what a compilation left, the same sources
come to the same documents, or to the same error that is told.
-/
namespace GraphQLDoc

open FileSystem

namespace FileSystem

variable {fs gs hs : FileSystem} {p : Path} {q : List String}

/-- Nothing is gone, and the links are the same. -/
structure Extends (fs gs : FileSystem) : Prop where
  links : KeepsLinks fs gs
  grows : Grows fs gs
  sound : gs.IsSound

theorem Extends.refl (h : fs.IsSound) : Extends fs fs :=
  ⟨.refl fs, ⟨rfl, fun _ _ hn => hn ▸ .rfl _⟩, h⟩

theorem Extends.trans (h : Extends fs gs) (h' : Extends gs hs) : Extends fs hs :=
  ⟨h.links.trans h'.links, h.grows.trans h'.grows, h'.sound⟩

theorem SameFile.trans (h : SameFile fs gs q) (h' : SameFile gs hs q) : SameFile fs hs q :=
  fun bytes time => (h' bytes time).trans (h bytes time)

/-- The same files, directories and links, whatever the files hold. -/
structure SameShape (fs gs : FileSystem) : Prop where
  workingDirectory : gs.workingDirectory = fs.workingDirectory
  node : ∀ q, SameKind (fs.node? q) (gs.node? q)

namespace SameShape

theorem refl (fs : FileSystem) : SameShape fs fs := ⟨rfl, fun q => .rfl (fs.node? q)⟩

theorem trans (h : SameShape fs gs) (h' : SameShape gs hs) : SameShape fs hs :=
  ⟨h'.workingDirectory.trans h.workingDirectory, fun q => (h.node q).trans (h'.node q)⟩

theorem grows (h : SameShape fs gs) : Grows fs gs := ⟨h.workingDirectory, fun q _ hn => hn ▸ h.node q⟩

theorem sameEnd (h : SameShape fs gs) (p : Path) : SameEnd (fs.find true p) (gs.find true p) :=
  find_sameEnd h.workingDirectory fun q _ => h.node q

theorem stat_ne (h : SameShape fs gs) (hp : fs.stat p ≠ .error .nameTooLong) :
    gs.stat p ≠ .error .nameTooLong := by
  have hend := h.sameEnd p
  unfold stat at hp ⊢
  generalize fs.find true p = r, gs.find true p = r' at hp hend
  cases hend <;> simp_all

/-- A file that is found and stayed was found before. -/
theorem find_file (h : SameShape fs gs) (hsame : SameFile fs gs q) {bytes : List UInt8} {time : Int}
    (hfind : gs.find true p = .ok (.node q (.file bytes time))) :
    fs.find true p = .ok (.node q (.file bytes time)) := by
  have hend := h.sameEnd p
  rw [hfind] at hend
  generalize hr : fs.find true p = r at hend
  cases hend with
  | node _ n =>
    have hn := (hsame bytes time).mp (find_isIn hfind)
    rw [Option.some.inj ((find_isIn hr).symm.trans hn)]

end SameShape

/-- A file that is written where one is found leaves the shape as it is. -/
theorem sameShape_setNode {old bytes : List UInt8} {time time' : Int}
    (hn : fs.node? q = some (.file old time)) : SameShape fs (fs.setNode q (.file bytes time')) := by
  refine ⟨rfl, fun r => ?_⟩
  rw [node?_setNode]
  split
  · rename_i hr
    rw [hr, node?_nil]
    exact .directory
  · split
    · rename_i hr
      rw [hr, hn]
      exact .file
    · exact .rfl _

theorem isFile_iff : fs.isFile p = true ↔
    ∃ place bytes time, fs.find true p = .ok (.node place (.file bytes time)) := by
  unfold isFile stat
  constructor
  · intro h
    cases hfind : fs.find true p with
    | error e => simp [hfind] at h
    | ok found =>
      cases found with
      | missing parent name => simp [hfind] at h
      | node place n =>
        rw [hfind] at h
        cases n with
        | file bytes time => exact ⟨place, bytes, time, rfl⟩
        | directory time => cases h
        | link target => cases h
  · rintro ⟨place, bytes, time, hfind⟩
    rw [hfind]

theorem Grows.isFile (h : Grows fs gs) (hp : fs.isFile p = true) : gs.isFile p = true := by
  obtain ⟨place, bytes, time, hfind⟩ := isFile_iff.mp hp
  obtain ⟨n, hn, hnode⟩ := find_grows h hfind
  have hkind := h.node place _ (find_isIn hfind)
  rw [hnode] at hkind
  cases hkind
  exact isFile_iff.mpr ⟨_, _, _, hn⟩

/-- What a path leads to stands in a directory. -/
theorem exists_isDirectory_parent (h : fs.IsSound) (hp : p.parts ≠ []) {n : FileNode}
    (hfind : fs.find true p = .ok (.node q n)) : ∃ b, fs.IsDirectory p.parent b := by
  have hbelow : p = p.parent.below [p.parts.getLast hp] := by
    rw [Path.below, Path.parent, List.dropLast_append_getLast hp]
  rw [hbelow] at hfind
  exact exists_isDirectory h (List.cons_ne_nil _ _) hfind

/-- The same files and directories. -/
structure IsAlike (fs gs : FileSystem) : Prop where
  workingDirectory : gs.workingDirectory = fs.workingDirectory
  node : ∀ q, SameContent (fs.node? q) (gs.node? q)
  sound : gs.IsSound

namespace IsAlike

variable (h : IsAlike fs gs)
include h

theorem sameFile (q : List String) : SameFile fs gs q := by
  intro bytes time
  have hsame := h.node q
  generalize fs.node? q = n, gs.node? q = n' at hsame
  cases hsame with
  | same => rfl
  | directory => simp

theorem toExtends : Extends fs gs where
  links := by
    refine ⟨h.workingDirectory, fun q target => ?_⟩
    have hsame := h.node q
    generalize fs.node? q = n, gs.node? q = n' at hsame
    cases hsame with
    | same => rfl
    | directory => simp
  grows := ⟨h.workingDirectory, fun q n hn => hn ▸ (h.node q).sameKind⟩
  sound := h.sound

theorem sameShape : SameShape fs gs := ⟨h.workingDirectory, fun q => (h.node q).sameKind⟩

theorem stat (p : Path) : SameStat (fs.stat p) (gs.stat p) :=
  stat_sameContent h.workingDirectory fun q _ => h.node q

end IsAlike

end FileSystem

variable [Machine]

/-- What is loaded is not nested more deeply than can be written. -/
theorem Artifact.nesting_of_load {fs : FileSystem} {p : Path} {d : Document}
    (h : load fs p = .ok d) : d.nesting ≤ maxNesting := by
  obtain ⟨-, -, -, text, -, -, hd⟩ := exists_of_load h
  unfold deserialize at hd
  split at hd
  · cases hd
  · exact nesting_of_decode hd

namespace Compile

variable {start fs gs later : FileSystem} {root build s t : Path} {sources : Set Path}
  {before list : List Path} {done docs : List (String × Document)} {k text : String}
  {b q r place : List String} {d : Document} {e : CompileError} {source artifactPath : Path}

theorem IsBuilt.toExtends (h : IsBuilt start root build sources fs) : Extends start fs :=
  ⟨h.links, h.grows, h.sound⟩

theorem Effect.extends (h : Effect fs source artifactPath gs) (hfs : fs.IsSound) : Extends fs gs where
  links := h.links
  sound := h.sound hfs
  grows := by
    cases h with
    | unchanged => exact (Extends.refl hfs).grows
    | made hmakes => exact hmakes.adds.grows
    | saved _ _ hsaves => exact hsaves.grows

/-- Compiling adds to what is there. -/
theorem extends_filesInto (build root : Path) (list : List Path) (done : List (String × Document))
    (h : fs.IsSound) : Extends fs (filesInto build root list done fs).2 :=
  filesInto_keeps (P := Extends fs)
    (fun _ _ _ _ _ h _ heffect => h.trans (heffect.extends h.sound))
    (.refl h)

omit [Machine] in
/-- Sources that are there stay apart from their artifacts. -/
theorem IsApart.of_extends (h : IsApart start root build sources) (hextends : Extends start fs)
    (hsources : ∀ s ∈ sources, ∃ r, start.LeadsTo s r) (hroot : ∃ r, start.LeadsTo root r) :
    IsApart fs root build sources where
  sound := hextends.sound
  plain s hs p q parts hp hq := by
    obtain ⟨r, hr⟩ := hsources s hs
    obtain ⟨r', hr'⟩ := hroot
    have hp' := hextends.sound.resolve_of_leadsTo (hextends.links.leadsTo.mpr hr)
    have hq' := hextends.sound.resolve_of_leadsTo (hextends.links.leadsTo.mpr hr')
    refine h.plain s hs p q parts ?_ ?_
    · rw [h.sound.resolve_of_leadsTo hr, ← hp', hp]
    · rw [h.sound.resolve_of_leadsTo hr', ← hq', hq]
  outside s hs b r hb hr :=
    h.outside s hs b r (hextends.links.leadsTo.mp hb) (hextends.links.leadsTo.mp hr)
  unlinked s hs k b q hk hb hq hbelow hlink := by
    obtain ⟨r, hr⟩ := hsources s hs
    obtain ⟨r', hr'⟩ := hroot
    have hkey := key_eq_of_leadsTo hextends.links h.sound hextends.sound hr hr'
    exact h.unlinked s hs k b q (hkey.symm.trans hk) (hextends.links.leadsTo.mp hb)
      (hextends.links.comesBy.mp hq) hbelow ((hextends.links.isLink q).mp hlink)

/-! One source. -/

theorem HasDocument.unique {d' : Document} (h : HasDocument fs source artifactPath d)
    (h' : HasDocument fs source artifactPath d') : d = d' := by
  cases h with
  | artifact hfresh hload =>
    cases h' with
    | artifact _ hload' => exact Except.ok.inj (hload.symm.trans hload')
    | source hstale _ =>
      rcases hstale with hstale | ⟨-, e, he, -⟩
      · cases hfresh.symm.trans hstale
      · cases hload.symm.trans he
  | source hstale hparse =>
    cases h' with
    | artifact hfresh hload =>
      rcases hstale with hstale | ⟨-, e, he, -⟩
      · cases hfresh.symm.trans hstale
      · cases hload.symm.trans he
    | source _ hparse' => exact Except.ok.inj (hparse.symm.trans hparse')

/-- What is loaded can be saved, and then nothing is new. -/
theorem exists_save_of_load (hsound : fs.IsSound) (hpath : artifactPath.parts ≠ [])
    (hload : Artifact.load fs artifactPath = .ok d) :
    ∃ gs, Artifact.save d artifactPath fs = (.ok (), gs) ∧ SameShape fs gs := by
  obtain ⟨place, bytes, time, text, hfind, -, -⟩ := Artifact.exists_of_load hload
  obtain ⟨b, made, hb⟩ := exists_isDirectory_parent hsound hpath hfind
  have hdirectory := ensureWithin_of_isDirectory (isDirectory_iff.mpr ⟨b, made, hb⟩)
    Machine.calls
  unfold Artifact.save ensureDirectories
  rw [hdirectory]
  simp only [Artifact.serialize_eq (Artifact.nesting_of_load hload), FileSystem.write, hfind]
  exact ⟨_, rfl, sameShape_setNode (find_isIn hfind)⟩

/-- The turn of a source whose document is held. -/
theorem IsHeld.file_eq (h : IsHeld fs source artifactPath d) (hsound : fs.IsSound)
    (hpath : artifactPath.parts ≠ []) (hsource : fs.isFile source = true) :
    ∃ gs, file source artifactPath fs = (.ok d, gs) ∧ SameShape fs gs := by
  obtain ⟨_, _, _, hfile⟩ := isFile_iff.mp hsource
  obtain ⟨_, _, _, _, hfind, -, -⟩ := Artifact.exists_of_load h.load
  obtain ⟨fresh, hfresh⟩ := exists_isFresh (stat_ne_of_find hfind) (stat_ne_of_find hfile)
  cases fresh with
  | true => exact ⟨fs, by rw [file, hfresh, h.load], .refl fs⟩
  | false =>
    have hparse : parseFile fs source = .ok d := by
      rcases h.source with hparse | hfresh' | hdirectory
      · exact hparse
      · cases hfresh.symm.trans hfresh'
      · obtain ⟨_, _, hfind⟩ := isDirectory_iff.mp hdirectory
        cases hfile.symm.trans hfind
    obtain ⟨gs, hsave, hshape⟩ := exists_save_of_load hsound hpath h.load
    exact ⟨gs, file_of_parse (.inl hfresh) hparse hsave, hshape⟩

/-- The turn of a source that an error is told of, where nothing is new and the source and its artifact
stayed. -/
theorem file_error_again (hshape : SameShape fs gs) (hsource : fs.isFile source = true)
    (hsame : ∀ q, fs.LeadsTo source q → SameFile fs gs q)
    (hartifact : ∀ q, gs.LeadsTo artifactPath q → SameFile fs gs q)
    (h : file source artifactPath fs = (.error e, fs)) (hreport : report e = some text) :
    file source artifactPath gs = (.error e, gs) := by
  obtain ⟨-, hstale, e', text', hparse, htext, rfl⟩ := file_eq_error h hreport
  obtain ⟨r, old, changed, hfind⟩ := isFile_iff.mp hsource
  have hfind' := find_file_of_grows hshape.grows (hsame r (find_leadsTo hfind (.inl rfl))) hfind
  have hparse' : parseFile gs source = .error e' := by
    rw [← hparse]
    simp only [parseFile, readText, FileSystem.read, stat, hfind, hfind']
  have hlong : fs.stat artifactPath ≠ .error .nameTooLong := by
    rcases hstale with hstale | ⟨hfresh, -⟩
    · exact stat_ne_of_isFresh hstale
    · exact stat_ne_of_isFresh hfresh
  obtain ⟨fresh, hfresh⟩ := exists_isFresh (hshape.stat_ne hlong) (stat_ne_of_find hfind')
  -- an artifact that is found was there before, as new and with the same text
  have hfound {q : List String} {bytes : List UInt8} {made : Int}
      (hfound' : gs.find true artifactPath = .ok (.node q (.file bytes made))) :
      IsStale gs source artifactPath := by
    have hfound := hshape.find_file (hartifact q (find_leadsTo hfound' (.inl rfl))) hfound'
    have htime : isFresh gs source artifactPath = isFresh fs source artifactPath := by
      simp only [isFresh, ask, time?, stat, hfind, hfind', hfound, hfound']
    have hload : Artifact.load gs artifactPath = Artifact.load fs artifactPath := by
      simp only [Artifact.load, readText, FileSystem.read, stat, hfound, hfound']
    rwa [IsStale, htime, hload]
  have hstale' : IsStale gs source artifactPath := by
    cases fresh with
    | false => exact .inl hfresh
    | true =>
      cases hload : Artifact.load gs artifactPath with
      | ok d =>
        obtain ⟨q, bytes, made, text, hfound', -, -⟩ := Artifact.exists_of_load hload
        exact hfound hfound'
      | error e =>
        by_cases hfault : e.fault? = none
        · exact .inr ⟨hfresh, e, hload, hfault⟩
        · obtain ⟨q, bytes, made, -, -, hfound', -, -⟩ := Artifact.exists_of_load_fault hload hfault
          exact hfound hfound'
  rw [file_of_stale hstale', rebuild, hparse']
  simp only [htext]

/-! All sources. -/

/-- The first source with its key is the one that the entry comes from. -/
theorem Progress.held {front rest : List Path} (h : Progress start root build before docs fs)
    (hcalls : Artifact.maxDepth ≤ Machine.calls) (hsplit : before = front ++ s :: rest)
    (hk : key start root s = .ok k) (hfirst : ∀ f ∈ front, key start root f ≠ .ok k) :
    ∃ d, Entries.get? k docs = some d ∧
      HasDocument (files front build root start).2 s (artifact build k) d ∧
      IsHeld fs s (artifact build k) d := by
  have hs : s ∈ before := by simp [hsplit]
  obtain ⟨l, d, hl, hd⟩ := h.keys s hs
  obtain rfl := Except.ok.inj (hk.symm.trans hl)
  obtain ⟨front', t, hfrom, hheld⟩ := h.entry k d hd
  suffices hsame : front' = front ∧ t = s by
    obtain ⟨rfl, rfl⟩ := hsame
    exact ⟨d, hd, hfrom.document, hheld hcalls⟩
  obtain ⟨rest', hrest'⟩ := hfrom.among
  rw [hsplit, List.append_assoc, List.singleton_append] at hrest'
  rcases List.append_eq_append_iff.mp hrest' with ⟨between, rfl, hbetween⟩ | ⟨between, rfl, hbetween⟩
  · cases between with
    | nil => exact ⟨by rw [List.append_nil], (List.cons.inj hbetween).1⟩
    | cons u between =>
      obtain ⟨rfl, -⟩ := List.cons.inj hbetween
      exact absurd hfrom.key (hfirst t (by simp))
  · cases between with
    | nil => exact ⟨by rw [List.append_nil], (List.cons.inj hbetween).1.symm⟩
    | cons u between =>
      obtain ⟨rfl, -⟩ := List.cons.inj hbetween
      exact absurd hk (hfrom.first s (by simp))

section Again

variable (hapart : IsApart start root build {t | t ∈ list})
  (hfiles : ∀ s ∈ list, start.isFile s = true) (hroot : ∃ r, start.LeadsTo root r)
include hapart hfiles hroot

omit [Machine] in
/-- Sources keep their keys. -/
theorem key_again (hextends : Extends start fs) (hs : s ∈ list) :
    key fs root s = key start root s := by
  obtain ⟨r, _, _, hfind⟩ := isFile_iff.mp (hfiles s hs)
  obtain ⟨q, hq⟩ := hroot
  exact key_eq_of_leadsTo hextends.links hapart.sound hextends.sound
    (find_leadsTo hfind (.inl rfl)) hq

omit [Machine] in
theorem isApart_again (hextends : Extends start fs) : IsApart fs root build {t | t ∈ list} := by
  refine hapart.of_extends hextends (fun s hs => ?_) hroot
  obtain ⟨r, _, _, hfind⟩ := isFile_iff.mp (hfiles s hs)
  exact ⟨r, find_leadsTo hfind (.inl rfl)⟩

/-- The files of a source whose key none in front of it has are not written in their turns. -/
theorem Progress.sameFile_again {front : List Path} (h : Progress later root build front done gs)
    (hextends : Extends start later) (hfront : front ⊆ list) (hs : s ∈ list)
    (hk : key start root s = .ok k) (hfirst : ∀ f ∈ front, key start root f ≠ .ok k) :
    (∀ q, later.LeadsTo s q → SameFile later gs q) ∧
      ∀ q, later.LeadsTo (artifact build k) q → SameFile later gs q := by
  have hlater := isApart_again hapart hfiles hroot hextends
  have hmore : {t | t ∈ front} ⊆ {t | t ∈ list} := fun t ht => hfront ht
  have hkey := (key_again hapart hfiles hroot hextends hs).trans hk
  refine ⟨fun q hq => h.sameFile fun t l hl hleads => ?_, fun q hq => h.sameFile fun t l hl hleads => ?_⟩
  · exact hlater.source_ne hs hq ⟨⟨t, hl.mono hmore⟩, hleads⟩ rfl
  · obtain rfl := hlater.artifact_unique ⟨⟨t, hl.mono hmore⟩, hleads⟩ ⟨⟨s, hs, hkey⟩, hq⟩
    exact hfirst t hl.1 ((key_again hapart hfiles hroot hextends (hfront hl.1)).symm.trans hl.2)

/-- Compiling again behind a compilation that went through. -/
theorem Progress.again (h : Progress start root build list docs fs)
    (hcalls : Artifact.maxDepth ≤ Machine.calls) (hextends : Extends fs later)
    (hsame : ∀ q, SameFile fs later q) {front rest : List Path} (hsplit : list = front ++ rest)
    {mid : FileSystem} (hfront : files front build root start = (.ok done, mid)) :
    ∃ gs, files front build root later = (.ok done, gs) ∧ SameShape later gs := by
  have hstart : Extends start later := h.toIsBuilt.toExtends.trans hextends
  induction front using List.reverseRecOn generalizing rest done mid with
  | nil =>
    cases hfront
    exact ⟨later, rfl, .refl later⟩
  | append_singleton front s ih =>
    rw [List.append_assoc, List.singleton_append] at hsplit
    have hsubset : front ⊆ list := fun t ht => hsplit ▸ List.mem_append_left _ ht
    have hmore : {t | t ∈ front} ⊆ {t | t ∈ list} := fun t ht => hsubset ht
    have hs : s ∈ list := by simp [hsplit]
    cases hrun : files front build root start with
    | mk result mid' =>
      cases result with
      | error e =>
        unfold files at hfront hrun
        rw [filesInto_append, hrun] at hfront
        cases hfront
      | ok done' =>
        obtain ⟨gs, hagain, hshape⟩ := ih hsplit hrun
        have hmid := files_progress (hapart.mono hmore) hrun
        have hgs := files_progress ((isApart_again hapart hfiles hroot hstart).mono hmore) hagain
        rw [files_concat hrun] at hfront
        rw [files_concat hagain]
        obtain ⟨k, hk, hturn⟩ := filesInto_singleton hfront
        have hkey := hmid.toIsBuilt.key_start hk
        have hkey' : key gs root s = .ok k :=
          (key_again hapart hfiles hroot (hstart.trans hgs.toIsBuilt.toExtends) hs).trans hkey
        rcases hturn with ⟨⟨d, hd⟩, rfl, -⟩ | ⟨d, hnone, rfl, hfile⟩
        · refine ⟨gs, ?_, hshape⟩
          rw [filesInto, hkey']
          simp only [hd, Option.isSome_some, if_true]
          rfl
        · have hfirst (f : Path) (hf : f ∈ front) : key start root f ≠ .ok k := by
            intro heq
            obtain ⟨l, d', hl, hd'⟩ := hmid.keys f hf
            obtain rfl := Except.ok.inj (heq.symm.trans hl)
            cases hnone.symm.trans hd'
          obtain ⟨d', -, hdocument, hheld⟩ := h.held hcalls hsplit hkey hfirst
          rw [hrun] at hdocument
          obtain rfl := hdocument.unique (hasDocument_of_file (by rw [hfile]))
          obtain ⟨hsource, hartifact⟩ :=
            hgs.sameFile_again hapart hfiles hroot hstart hsubset hs hkey hfirst
          have hheld' := (hheld.of_grows hextends.grows (fun q _ => hsame q) fun q _ => hsame q).of_grows
            hgs.grows hartifact hsource
          have hthere := (hstart.trans hgs.toIsBuilt.toExtends).grows.isFile (hfiles s hs)
          obtain ⟨gs', hfile', hshape'⟩ := hheld'.file_eq hgs.sound (by simp [artifact]) hthere
          exact ⟨gs', filesInto_of_file hkey' hnone hfile' [], hshape.trans hshape'⟩

/-- The turn of a source that an error is told of, once more. -/
theorem Progress.error_again {before after : List Path} (hsplit : list = before ++ s :: after)
    (h : Progress start root build before docs fs)
    (hturn : filesInto build root [s] docs fs = (.error e, fs)) (hreport : report e = some text)
    (halike : IsAlike fs later) (hagain : files before build root later = (.ok docs, gs))
    (hshape : SameShape later gs) : filesInto build root [s] docs gs = (.error e, gs) := by
  have hsubset : before ⊆ list := fun t ht => hsplit ▸ List.mem_append_left _ ht
  have hmore : {t | t ∈ before} ⊆ {t | t ∈ list} := fun t ht => hsubset ht
  have hs : s ∈ list := by simp [hsplit]
  have hfs := h.toIsBuilt.toExtends
  have hstart := hfs.trans halike.toExtends
  have hlater := isApart_again hapart hfiles hroot hstart
  have hgs := files_progress (hlater.mono hmore) hagain
  have hsame : key gs root s = key fs root s :=
    (key_again hapart hfiles hroot (hstart.trans hgs.toIsBuilt.toExtends) hs).trans
      (key_again hapart hfiles hroot hfs hs).symm
  rw [filesInto] at hturn ⊢
  rw [hsame]
  cases hk : key fs root s with
  | error e' =>
    rw [hk] at hturn
    cases hturn
    rfl
  | ok k =>
    rw [hk] at hturn
    dsimp only at hturn ⊢
    split at hturn
    · cases hturn
    rename_i hnone
    rw [if_neg hnone]
    suffices hfile : file s (artifact build k) gs = (.error e, gs) by rw [hfile]
    cases hfile : file s (artifact build k) fs with
    | mk result made =>
      rw [hfile] at hturn
      cases result with
      | ok d => cases hturn
      | error e' =>
        cases hturn
        have hkey := h.toIsBuilt.key_start hk
        have hfirst (f : Path) (hf : f ∈ before) : key start root f ≠ .ok k := by
          intro heq
          obtain ⟨l, d', hl, hd'⟩ := h.keys f hf
          obtain rfl := Except.ok.inj (heq.symm.trans hl)
          exact hnone (by rw [hd']; rfl)
        obtain ⟨hsource, hartifact⟩ :=
          hgs.sameFile_again hapart hfiles hroot hstart hsubset hs hkey hfirst
        refine file_error_again (halike.sameShape.trans hshape)
          (hfs.grows.isFile (hfiles s hs)) (fun q hq => ?_) (fun q hq => ?_) hfile hreport
        · exact (halike.sameFile q).trans (hsource q (halike.toExtends.links.leadsTo.mpr hq))
        · exact (halike.sameFile q).trans (hartifact q (hgs.links.leadsTo.mp hq))

/-- A compilation that ends with documents or with an error that is told of comes to the same once
more, when the files and directories are as it left them. -/
theorem files_again {result : Except CompileError (List (String × Document))}
    (hcalls : Artifact.maxDepth ≤ Machine.calls)
    (hrun : files list build root start = (result, fs))
    (hreport : ∀ e, result = .error e → ∃ text, report e = some text) (halike : IsAlike fs later) :
    (files list build root later).1 = result := by
  cases result with
  | ok docs =>
    obtain ⟨gs, hagain, -⟩ := (files_progress hapart hrun).again hapart hfiles hroot
      hcalls halike.toExtends halike.sameFile (List.append_nil list).symm hrun
    rw [hagain]
  | error e =>
    obtain ⟨text, htext⟩ := hreport e rfl
    obtain ⟨before, s, after, docs, mid, hlist, hbefore, hturn⟩ := exists_turn_of_error hrun
    have hmore : {t | t ∈ before} ⊆ {t | t ∈ list} :=
      fun t ht => hlist ▸ List.mem_append_left _ ht
    have hprogress := files_progress (hapart.mono hmore) hbefore
    obtain ⟨rfl, -⟩ := filesInto_singleton_error hprogress.toIsBuilt hturn htext
    have hstart : ∀ s ∈ before, start.isFile s = true := fun s hs => hfiles s (hmore hs)
    obtain ⟨gs, hagain, hshape⟩ := hprogress.again (hapart.mono hmore) hstart hroot
      hcalls halike.toExtends halike.sameFile (List.append_nil before).symm hbefore
    have herror := hprogress.error_again hapart hfiles hroot hlist hturn htext halike hagain hshape
    unfold files at hagain ⊢
    rw [hlist, List.append_cons before s after, filesInto_append, filesInto_append, hagain]
    dsimp only
    rw [herror]

end Again

end Compile

end GraphQLDoc
