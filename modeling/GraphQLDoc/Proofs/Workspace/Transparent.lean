import GraphQLDoc.Proofs.Workspace.Beside

/-!
Compiling with artifacts and without them. On a file system whose artifacts are up to date, and on one
beside it that has no artifact yet, the same sources are compiled to the same documents: the one reads
an artifact where the other parses the source.
-/
namespace GraphQLDoc.Compile

open FileSystem

variable [Machine] {start fs gs fs' gs' : FileSystem} {root build s : Path} {sources : Set Path}
  {k : String} {b r place : List String} {bytes : List UInt8} {d : Document}

/-- What is loaded from a fresh artifact is what the source says. -/
theorem IsCurrent.parseFile_of_fresh (h : IsSetting start root build sources)
    (hfs : IsCurrent start root build sources fs)
    (hk : HasKey start root sources s k) (hfresh : isFresh fs s (artifact build k) = .ok true)
    {time : Int} (hfind : fs.find true (artifact build k) = .ok (.node place (.file bytes time))) :
    ∃ d, d.nesting ≤ maxNesting ∧ Artifact.load fs (artifact build k) = .ok d ∧
      parseFile fs s = .ok d := by
  obtain ⟨made, changed, hmade, hchanged, hlt⟩ := isFresh_iff.mp hfresh
  obtain ⟨q, m, hm, hmadeAt⟩ := time?_eq_some.mp hmade
  obtain ⟨r, n, hn, hchangedAt⟩ := time?_eq_some.mp hchanged
  obtain ⟨rfl, rfl⟩ := Found.node.inj (Except.ok.inj (hm.symm.trans hfind))
  obtain rfl : time = made := by
    rcases hmadeAt with ⟨_, hfile⟩ | hdirectory
    · exact (FileNode.file.inj hfile).2
    · exact nomatch hdirectory
  have hr := hfs.links.leadsTo.mp (find_leadsTo hn (.inl rfl))
  have hplace := hfs.links.leadsTo.mp (find_leadsTo hfind (.inl rfl))
  obtain ⟨-, hcurrent⟩ := hfs.upToDate s k r q hk hr hplace bytes time (find_isIn hfind)
  obtain ⟨old, d, rfl, hdocument, hnesting, rfl⟩ := hcurrent n changed (find_isIn hn) hchangedAt hlt
  exact ⟨d, hnesting,
    Artifact.load_bytesOf (isPlain_of_isDocumentOf hdocument) hnesting h.calls hfind,
    parseFile_eq_ok_iff.mpr ⟨r, old, changed, hn, hdocument⟩⟩

/-- Whether an artifact is newer is always known. -/
theorem IsTidy.exists_isFresh (h : IsSetting start root build sources)
    (hfs : IsTidy start root build sources fs) (hk : HasKey start root sources s k) :
    ∃ b, isFresh fs s (artifact build k) = .ok b := by
  obtain ⟨hsource, hartifact⟩ := h.short s hk.1
  exact Compile.exists_isFresh (hfs.links.hasShortNames.mpr (hartifact k hk.2)).stat_ne
    (hfs.links.hasShortNames.mpr hsource).stat_ne

/-- A source is compiled anew unless its artifact is newer and a file. -/
theorem file_eq_rebuild (hknown : ∃ b, isFresh fs s (artifact build k) = .ok b)
    (hnone : isFresh fs s (artifact build k) = .ok true → ∀ place bytes time,
      fs.find true (artifact build k) ≠ .ok (.node place (.file bytes time))) :
    file s (artifact build k) fs = rebuild s (artifact build k) fs := by
  obtain ⟨fresh, hfresh⟩ := hknown
  cases fresh with
  | false => exact file_of_stale (.inl hfresh)
  | true =>
    cases hread : fs.read (artifact build k) with
    | error e =>
      refine file_of_stale (.inr ⟨hfresh, .file (.file e), ?_, rfl⟩)
      rw [Artifact.load, readText, hread]
    | ok bytes =>
      obtain ⟨place, time, hfind⟩ := read_eq_ok.mp hread
      exact absurd hfind (hnone hfresh place bytes time)

/-- The names of the directories of a source that is there. -/
theorem IsTidy.frontNames (hfs : IsTidy start root build sources fs)
    (hparse : parseFile fs s = .ok d) {front : List String} {last : String}
    (hf : IsFront start build s k front last) : ∀ name ∈ front, IsEntryName name := by
  obtain ⟨r, bytes, time, hfind, -⟩ := parseFile_eq_ok_iff.mp hparse
  have hr := hfs.links.leadsTo.mp (find_leadsTo hfind (.inl rfl))
  exact fun name hname => hfs.sound.isEntryName (find_isIn hfind) (hf.source r hr hname)

section Setting

variable (h : IsSetting start root build sources)
include h

/-- Both fail to save an artifact for the same reason. -/
theorem Beside.save_error (hbeside : Beside start root build sources b fs gs)
    (hk : HasKey start root sources s k) (hparse : parseFile fs s = .ok d) {f : Fault}
    (hsave : Artifact.save d (artifact build k) fs = (.error f, fs')) :
    ∃ made, Artifact.save d (artifact build k) gs = (.error f, made) := by
  cases hsave' : Artifact.save d (artifact build k) gs with
  | mk result gs' =>
    cases result with
    | ok u =>
      obtain ⟨hnesting, place, hsaves⟩ := Artifact.exists_saves hsave'
      obtain ⟨saved, hsaved⟩ := hbeside.symm.exists_save_of_saves h hk hsaves hnesting
      rw [hsave] at hsaved
      exact nomatch hsaved
    | error f' =>
      obtain ⟨front, last, hf⟩ := exists_front h hk
      have hnames := hbeside.tidy.frontNames hparse hf
      have he := hbeside.tidy.save_error h hk hbeside.directory hf hnames hsave
      have he' := hbeside.tidy'.save_error h hk hbeside.directory' hf hnames hsave'
      rw [he, he']
      exact ⟨_, rfl⟩

/-- One source: both fail in the same way, or both have the same document and stay beside each
other. -/
theorem Beside.file (hbeside : Beside start root build sources b fs gs)
    (hfs : IsCurrent start root build sources fs) (hk : HasKey start root sources s k)
    (hnone : ∀ place bytes time, start.LeadsTo (artifact build k) place →
      gs.node? place ≠ some (.file bytes time)) :
    (∃ e fs' gs', file s (artifact build k) fs = (.error e, fs') ∧
      file s (artifact build k) gs = (.error e, gs')) ∨
    ∃ d fs' gs' place bytes, file s (artifact build k) fs = (.ok d, fs') ∧
      file s (artifact build k) gs = (.ok d, gs') ∧
      Beside start root build sources b fs' gs' ∧ IsCurrent start root build sources fs' ∧
      Saves gs gs' (artifact build k) place bytes := by
  have hsource := hbeside.parseFile_eq h hk.1
  have hcurrent := hfs.effect h hk (effect_file s (artifact build k) fs)
  have hrebuilt : Compile.file s (artifact build k) gs = rebuild s (artifact build k) gs := by
    refine file_eq_rebuild (hbeside.tidy'.exists_isFresh h hk) fun _ place bytes time hfind => ?_
    exact hnone place bytes time (hbeside.tidy'.links.leadsTo.mp (find_leadsTo hfind (.inl rfl)))
      (find_isIn hfind)
  rw [hrebuilt]
  by_cases hcached : isFresh fs s (artifact build k) = .ok true ∧
      ∃ place bytes time, fs.find true (artifact build k) = .ok (.node place (.file bytes time))
  · -- the artifact stands there, so that it can be written on the other side too
    obtain ⟨hfresh, place, bytes, time, hfind⟩ := hcached
    obtain ⟨d, hnesting, hload, hparse⟩ := hfs.parseFile_of_fresh h hk hfresh hfind
    have hplace : start.LeadsTo (artifact build k) place :=
      hbeside.tidy.links.leadsTo.mp (find_leadsTo hfind (.inl rfl))
    have hfile : fs.node? place = some (.file bytes time) := find_isIn hfind
    obtain ⟨gs', hsave⟩ := hbeside.exists_save h hk hplace
      (fun name => hbeside.tidy.sound.isEntryName hfile) (by
        rintro ⟨_, hdirectory⟩
        rw [hfile] at hdirectory
        exact nomatch hdirectory) hnesting
    obtain ⟨-, q, hsaves⟩ := Artifact.exists_saves hsave
    refine .inr ⟨d, fs, gs', q, _, ?_, ?_, hbeside.saves_right h hk hsaves, hfs, hsaves⟩
    · simp only [Compile.file, hfresh, hload]
    · simp only [Compile.rebuild, hsource, hparse, hsave]
  · have hrebuild : Compile.file s (artifact build k) fs = rebuild s (artifact build k) fs :=
      file_eq_rebuild (hbeside.tidy.exists_isFresh h hk) fun hfresh place bytes time hfind =>
        hcached ⟨hfresh, place, bytes, time, hfind⟩
    rw [hrebuild] at hcurrent ⊢
    unfold Compile.rebuild at hcurrent ⊢
    rw [hsource]
    cases hparse : parseFile fs s with
    | error e =>
      left
      cases hreport : e.report? <;> simp only [hreport] <;> exact ⟨_, fs, gs, rfl, rfl⟩
    | ok d =>
      rw [hparse] at hcurrent
      cases hsave : Artifact.save d (artifact build k) fs with
      | mk result fs' =>
        cases result with
        | error e =>
          obtain ⟨gs', hsave'⟩ := hbeside.save_error h hk hparse hsave
          simp only [hsave, hsave']
          exact .inl ⟨_, fs', gs', rfl, rfl⟩
        | ok u =>
          obtain ⟨hnesting, place, hsaves⟩ := Artifact.exists_saves hsave
          obtain ⟨gs', hsave'⟩ := hbeside.exists_save_of_saves h hk hsaves hnesting
          obtain ⟨-, place', hsaves'⟩ := Artifact.exists_saves hsave'
          simp only [hsave] at hcurrent
          simp only [hsave, hsave']
          exact .inr ⟨d, fs', gs', place', _, rfl, rfl,
            (hbeside.saves_left h hk hsaves).saves_right h hk hsaves', hcurrent, hsaves'⟩

/-- All sources: where no artifact of a source that is not compiled yet is on the other side, the
outcomes are the same. -/
theorem Beside.filesInto_eq {list : List Path} (hlist : ∀ s ∈ list, s ∈ sources)
    {done : List (String × Document)} (hbeside : Beside start root build sources b fs gs)
    (hfs : IsCurrent start root build sources fs)
    (hnone : ∀ k place bytes time, Entries.get? k done = none →
      IsArtifactAt start root build sources k place → gs.node? place ≠ some (.file bytes time)) :
    (filesInto build root list done fs).1 = (filesInto build root list done gs).1 := by
  induction list generalizing done fs gs with
  | nil => rfl
  | cons s rest ih =>
    obtain ⟨hs, hrest⟩ := List.forall_mem_cons.mp hlist
    rw [filesInto, filesInto, h.key_eq hbeside.tidy.links hbeside.tidy.sound hs,
      h.key_eq hbeside.tidy'.links hbeside.tidy'.sound hs]
    cases hkey : key start root s with
    | error e => rfl
    | ok k =>
      dsimp only
      have hk : HasKey start root sources s k := ⟨hs, hkey⟩
      by_cases hdone : (Entries.get? k done).isSome = true
      · rw [if_pos hdone, if_pos hdone]
        exact ih hrest hbeside hfs hnone
      rw [if_neg hdone, if_neg hdone]
      have hfree : Entries.get? k done = none := by simpa using hdone
      rcases hbeside.file h hfs hk fun place bytes time hplace =>
          hnone k place bytes time hfree ⟨⟨s, hk⟩, hplace⟩ with
        ⟨e, fs', gs', hleft, hright⟩ |
        ⟨d, fs', gs', place, bytes, hleft, hright, hbeside', hfs', hsaves⟩
      · rw [hleft, hright]
      · rw [hleft, hright]
        refine ih hrest hbeside' hfs' fun l q old time hl hq => ?_
        rw [get?_append] at hl
        obtain ⟨hl, hne⟩ := Option.or_eq_none_iff.mp hl
        -- the artifact of another source is elsewhere
        have hqp : q ≠ place := by
          rintro rfl
          have hplace := hbeside.tidy'.links.leadsTo.mp hsaves.leads
          obtain rfl := h.isApart.artifact_unique hq ⟨⟨s, hk⟩, hplace⟩
          simp [Entries.get?] at hne
        rw [Ne, hsaves.file_iff hqp]
        exact hnone l q old time hl hq

end Setting

end GraphQLDoc.Compile
