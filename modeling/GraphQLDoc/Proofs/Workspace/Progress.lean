import GraphQLDoc.Proofs.Workspace.Apart

/-!
How far a compilation has come when it is a source's turn. Nothing was written but artifacts of the
sources in front of it and directories on the way to them, and each entry that is there says what its
source or its artifact said in its turn, as its artifact still does.
-/
namespace GraphQLDoc

open FileSystem

namespace FileSystem

variable {fs gs hs : FileSystem} {p t : Path} {q place : List String} {bytes old : List UInt8}
  {time : Int}

/-- The file at a place is the same, or there is none. -/
def SameFile (fs gs : FileSystem) (q : List String) : Prop :=
  ∀ bytes time, gs.node? q = some (.file bytes time) ↔ fs.node? q = some (.file bytes time)

theorem Made.sameFile {now : Int} {new : Prop} (h : Made now new (fs.node? q) (gs.node? q)) :
    SameFile fs gs q := by
  intro bytes time
  generalize fs.node? q = n, gs.node? q = n' at h
  cases h with
  | same => rfl
  | touched => simp
  | made => simp

/-- A file that stayed is still found. -/
theorem find_file_of_grows (hgrows : Grows fs gs) (hsame : SameFile fs gs q)
    (hfind : fs.find true t = .ok (.node q (.file old time))) :
    gs.find true t = .ok (.node q (.file old time)) := by
  obtain ⟨n, hn, hnode⟩ := find_grows hgrows hfind
  rw [(hsame old time).mpr (find_isIn hfind)] at hnode
  rw [hn, ← Option.some.inj hnode]

namespace Saves

variable (h : Saves fs gs p place bytes)
include h

/-- A file that is not at the place is still found. -/
theorem find_file (hfind : fs.find true t = .ok (.node q (.file old time))) (hq : q ≠ place) :
    gs.find true t = .ok (.node q (.file old time)) :=
  find_file_of_grows h.grows (fun _ _ => h.file_iff hq) hfind

end Saves

end FileSystem

namespace Compile

variable {start fs gs : FileSystem} {root build s t : Path} {sources more : Set Path}
  {before rest : List Path} {done docs : List (String × Document)} {k l : String}
  {b q r place : List String} {bytes : List UInt8} {d : Document} {p source artifactPath : Path}

variable [Machine]

/-! One source. -/

/-- A document is read from a fresh artifact, or it is parsed and saved. -/
theorem file_eq_ok (h : file source artifactPath fs = (.ok d, gs)) :
    gs = fs ∧ isFresh fs source artifactPath = .ok true ∧ Artifact.load fs artifactPath = .ok d ∨
      parseFile fs source = .ok d ∧ Artifact.save d artifactPath fs = (.ok (), gs) := by
  have hrebuild (h : rebuild source artifactPath fs = (.ok d, gs)) :
      parseFile fs source = .ok d ∧ Artifact.save d artifactPath fs = (.ok (), gs) := by
    unfold rebuild at h
    split at h
    · split at h <;> cases h
    · rename_i d' hparse
      split at h
      · rename_i hsave
        cases h
        exact ⟨hparse, hsave⟩
      · cases h
  unfold file at h
  split at h
  · cases h
  · exact .inr (hrebuild h)
  · rename_i hfresh
    split at h
    · rename_i hload
      cases h
      exact .inl ⟨rfl, hfresh, hload⟩
    · split at h
      · cases h
      · exact .inr (hrebuild h)

/-- A source whose artifact is not fresh or cannot be read is compiled anew. -/
theorem file_of_stale (hstale : IsStale fs source artifactPath) :
    file source artifactPath fs = rebuild source artifactPath fs := by
  unfold file
  rcases hstale with hstale | ⟨hfresh, e, he, hfault⟩
  · rw [hstale]
  · simp only [hfresh, he, hfault]

theorem file_of_parse (hstale : IsStale fs source artifactPath) (hparse : parseFile fs source = .ok d)
    (hsave : Artifact.save d artifactPath fs = (.ok (), gs)) :
    file source artifactPath fs = (.ok d, gs) := by
  rw [file_of_stale hstale, rebuild, hparse]
  simp only [hsave]

theorem file_of_save_error (hstale : IsStale fs source artifactPath)
    (hparse : parseFile fs source = .ok d) {f : Fault}
    (hsave : Artifact.save d artifactPath fs = (.error f, gs)) :
    file source artifactPath fs = (.error (.fault f), gs) := by
  rw [file_of_stale hstale, rebuild, hparse]
  simp only [hsave]

/-- An error that is told of is that of the source, which is compiled anew, and leaves everything as
it is. -/
theorem file_eq_error {e : CompileError} {text : String}
    (h : file source artifactPath fs = (.error e, gs)) (hreport : report e = some text) :
    gs = fs ∧ IsStale fs source artifactPath ∧
      ∃ e' text', parseFile fs source = .error e' ∧ e'.report? = some text' ∧
        e = .source source text' := by
  have hrebuild (h : rebuild source artifactPath fs = (.error e, gs)) : gs = fs ∧
      ∃ e' text', parseFile fs source = .error e' ∧ e'.report? = some text' ∧
        e = .source source text' := by
    unfold rebuild at h
    split at h
    · rename_i e' hparse
      split at h
      · rename_i text' htext
        cases h
        exact ⟨rfl, e', text', hparse, htext, rfl⟩
      · cases h
        cases hreport
    · split at h
      · cases h
      · cases h
        cases hreport
  unfold file at h
  split at h
  · cases h
    cases hreport
  · rename_i hfresh
    obtain ⟨rfl, hsource⟩ := hrebuild h
    exact ⟨rfl, .inl hfresh, hsource⟩
  · rename_i hfresh
    split at h
    · cases h
    · rename_i e' hload
      split at h
      · cases h
        cases hreport
      · rename_i hfault
        obtain ⟨rfl, hsource⟩ := hrebuild h
        exact ⟨rfl, .inr ⟨hfresh, e', hload, hfault⟩, hsource⟩

/-! All sources. -/

theorem filesInto_append (before rest : List Path) (done : List (String × Document))
    (fs : FileSystem) : filesInto build root (before ++ rest) done fs =
      match filesInto build root before done fs with
      | (.error e, gs) => (.error e, gs)
      | (.ok done, gs) => filesInto build root rest done gs := by
  induction before generalizing done fs with
  | nil => rfl
  | cons s before ih =>
    rw [List.cons_append, filesInto, filesInto]
    cases key fs root s with
    | error e => rfl
    | ok k =>
      dsimp only
      split
      · exact ih done fs
      · cases file s (artifact build k) fs with
        | mk result gs =>
          cases result with
          | error e => rfl
          | ok d => exact ih _ gs

/-- One source in front. -/
theorem filesInto_of_file (hk : key fs root s = .ok k) (hnone : Entries.get? k done = none)
    (hfile : file s (artifact build k) fs = (.ok d, gs)) (rest : List Path) :
    filesInto build root (s :: rest) done fs = filesInto build root rest (done ++ [(k, d)]) gs := by
  rw [filesInto, hk]
  simp only [hnone, hfile, Option.isSome_none, Bool.false_eq_true, if_false]

theorem filesInto_of_error {e : CompileError} (hk : key fs root s = .ok k)
    (hnone : Entries.get? k done = none) (hfile : file s (artifact build k) fs = (.error e, gs))
    (rest : List Path) : filesInto build root (s :: rest) done fs = (.error e, gs) := by
  rw [filesInto, hk]
  simp only [hnone, hfile, Option.isSome_none, Bool.false_eq_true, if_false]

/-- One more source. -/
theorem files_concat (hrun : files before build root fs = (.ok done, gs)) :
    files (before ++ [s]) build root fs = filesInto build root [s] done gs := by
  unfold files at hrun ⊢
  rw [filesInto_append, hrun]

/-- The turn of a source: its key is there already, or its document is added. -/
theorem filesInto_singleton {hs : FileSystem}
    (hrun : filesInto build root [s] done fs = (.ok docs, hs)) : ∃ k, key fs root s = .ok k ∧
      ((∃ d, Entries.get? k done = some d) ∧ docs = done ∧ hs = fs ∨
        ∃ d, Entries.get? k done = none ∧ docs = done ++ [(k, d)] ∧
          file s (artifact build k) fs = (.ok d, hs)) := by
  rw [filesInto] at hrun
  cases hk : key fs root s with
  | error e =>
    rw [hk] at hrun
    cases hrun
  | ok k =>
    rw [hk] at hrun
    dsimp only at hrun
    refine ⟨k, rfl, ?_⟩
    split at hrun
    · rename_i hsome
      cases hrun
      exact .inl ⟨Option.isSome_iff_exists.mp hsome, rfl, rfl⟩
    · rename_i hsome
      cases hfile : file s (artifact build k) fs with
      | mk result made =>
        rw [hfile] at hrun
        cases result with
        | error e => cases hrun
        | ok d =>
          cases hrun
          exact .inr ⟨d, by simpa using hsome, rfl, rfl⟩

/-! What was written. -/

/-- An artifact that was written, where nothing or a file stood, for what its source says. -/
def IsWritten (start : FileSystem) (root build : Path) (sources : Set Path) (fs : FileSystem)
    (q : List String) : Prop :=
  (∀ n, start.node? q = some n → ∃ bytes time, n = .file bytes time) ∧
    ∃ s k d, HasKey start root sources s k ∧ start.LeadsTo (artifact build k) q ∧
      parseFile fs s = .ok d ∧ fs.node? q = some (.file (Artifact.bytesOf d) start.now)

/-- Nothing was written but artifacts and directories on the way to them. -/
structure IsBuilt (start : FileSystem) (root build : Path) (sources : Set Path)
    (fs : FileSystem) : Prop where
  links : KeepsLinks start fs
  sound : fs.IsSound
  now : fs.now = start.now
  begun : fs = start ∨ ∃ b, fs.IsDirectory build b
  node : ∀ q, Made start.now (IsArtifactWay start root build sources q) (start.node? q) (fs.node? q) ∨
    IsWritten start root build sources fs q

omit [Machine] in
theorem IsArtifactWay.mono (h : IsArtifactWay start root build sources q)
    (hmore : sources ⊆ more) : IsArtifactWay start root build more q := by
  obtain ⟨s, k, hk, hq⟩ := h
  exact ⟨s, k, hk.mono hmore, hq⟩

namespace IsBuilt

theorem refl (h : start.IsSound) : IsBuilt start root build sources start :=
  ⟨.refl start, h, rfl, .inl rfl, fun _ => .inl (.same _)⟩

section Built

variable (h : IsBuilt start root build sources fs)
include h

theorem mono (hmore : sources ⊆ more) : IsBuilt start root build more fs where
  links := h.links
  sound := h.sound
  now := h.now
  begun := h.begun
  node q := (h.node q).imp (fun h => h.mono fun h => h.mono hmore)
    fun ⟨hfree, s, k, d, hk, hrest⟩ => ⟨hfree, s, k, d, hk.mono hmore, hrest⟩

theorem grows : Grows start fs where
  workingDirectory := h.links.workingDirectory
  node q n hn := by
    rcases h.node q with hmade | ⟨hfree, _, _, _, -, -, -, hwritten⟩
    · rw [hn] at hmade
      generalize fs.node? q = n' at hmade
      cases hmade with
      | same => exact .rfl _
      | touched => exact .directory
    · obtain ⟨bytes, time, rfl⟩ := hfree n hn
      rw [hwritten]
      exact .file

/-- A key that a source has now it had at the start. -/
theorem key_start (hk : key fs root s = .ok k) : key start root s = .ok k := by
  unfold key at hk ⊢
  split at hk
  case h_5 p q hp hq =>
    rw [h.grows.resolve_of h.links hp, h.grows.resolve_of h.links hq]
    exact hk
  all_goals cases hk

theorem leadsTo (hfind : fs.find true s = .ok (.node r n)) : start.LeadsTo s r :=
  h.links.leadsTo.mp (find_leadsTo hfind (.inl rfl))

/-- A file is the same unless it is an artifact that was written. -/
theorem sameFile (hq : ∀ s k, HasKey start root sources s k →
    ¬ start.LeadsTo (artifact build k) q) : SameFile start fs q := by
  rcases h.node q with hmade | ⟨-, s, k, -, hk, hleads, -⟩
  · exact hmade.sameFile
  · exact absurd hleads (hq s k hk)

/-- What stands where an artifact is saved was there at the start if it was a file. -/
theorem free_start (hfree : ∀ n, fs.node? q = some n → ∃ bytes time, n = .file bytes time) (n : FileNode)
    (hn : start.node? q = some n) : ∃ bytes time, n = .file bytes time := by
  rcases h.node q with hmade | ⟨hfree, -⟩
  · rw [hn] at hmade
    generalize hm : fs.node? q = m at hmade
    cases hmade with
    | same => exact hfree n hm
    | touched =>
      obtain ⟨_, _, hfile⟩ := hfree _ hm
      cases hfile
  · exact hfree n hn

/-- What a source says is not changed by an artifact. -/
theorem parseFile_saves (hapart : IsApart start root build sources)
    (hplace : IsArtifactAt start root build sources k place)
    (hsaves : Saves fs gs p place bytes) (ht : t ∈ sources) (hparse : parseFile fs t = .ok d) :
    parseFile gs t = .ok d := by
  obtain ⟨r, old, time, hfind, hdocument⟩ := parseFile_eq_ok_iff.mp hparse
  have hne := hapart.source_ne ht (h.leadsTo hfind) hplace
  exact parseFile_eq_ok_iff.mpr ⟨r, old, time, hsaves.find_file hfind hne, hdocument⟩

/-- The artifact of a source is saved. -/
theorem saves (hapart : IsApart start root build sources) (hk : HasKey start root sources s k)
    (hparse : parseFile fs s = .ok d)
    (hsaves : Saves fs gs (artifact build k) place (Artifact.bytesOf d)) :
    IsBuilt start root build sources gs := by
  have hplace : IsArtifactAt start root build sources k place :=
    ⟨⟨s, hk⟩, h.links.leadsTo.mp hsaves.leads⟩
  have hparsed (t : Path) (d' : Document) (ht : t ∈ sources) (hd' : parseFile fs t = .ok d') :=
    h.parseFile_saves hapart hplace hsaves ht hd'
  refine ⟨h.links.trans hsaves.links, hsaves.sound h.sound, hsaves.now.trans h.now, .inr ?_,
    fun q => ?_⟩
  · obtain ⟨b, names, -, hne, -, -, hpath, -⟩ := hapart.artifact_below hplace
    have hfound := hsaves.found
    rw [hpath] at hfound
    exact exists_isDirectory (hsaves.sound h.sound) hne hfound
  · by_cases hq : q = place
    · subst hq
      refine .inr ⟨h.free_start hsaves.before, s, k, d, hk, hplace.2, hparsed s d hk.1 hparse, ?_⟩
      rw [hsaves.written, h.now]
    · have hmade : Made start.now (IsArtifactWay start root build sources q) (fs.node? q)
          (gs.node? q) :=
        h.now ▸ (hsaves.node q hq).mono fun hcomes => ⟨s, k, hk, h.links.comesBy.mp hcomes⟩
      rcases h.node q with hmade' | ⟨hfree, t, l, d', hl, hleads, hd', hwritten⟩
      · exact .inl (hmade'.trans hmade)
      · exact .inr ⟨hfree, t, l, d', hl, hleads, hparsed t d' hl.1 hd',
          (hsaves.file_iff hq).mpr hwritten⟩

end Built

end IsBuilt

/-! Entries. -/

/-- The source that an entry comes from: the first with its key, compiled behind those in front. -/
structure ComesFrom (start : FileSystem) (root build : Path) (before : List Path) (k : String)
    (d : Document) (front : List Path) (t : Path) : Prop where
  among : front ++ [t] <+: before
  key : key start root t = .ok k
  first : ∀ f ∈ front, Compile.key start root f ≠ .ok k
  document : HasDocument (files front build root start).2 t (artifact build k) d

/-- An artifact says a document, and so does its source unless that is older or a directory. -/
structure IsHeld (fs : FileSystem) (source artifactPath : Path) (d : Document) : Prop where
  load : Artifact.load fs artifactPath = .ok d
  source : parseFile fs source = .ok d ∨ isFresh fs source artifactPath = .ok true ∨
    fs.isDirectory source = true

/-- How far a compilation has come behind some sources. What was saved can be loaded where the machine
grants the calls to read an artifact. -/
structure Progress (start : FileSystem) (root build : Path) (before : List Path)
    (done : List (String × Document)) (fs : FileSystem) : Prop
    extends IsBuilt start root build {s | s ∈ before} fs where
  keys : ∀ s ∈ before, ∃ k d, key start root s = .ok k ∧ Entries.get? k done = some d
  entry : ∀ k d, Entries.get? k done = some d → ∃ front t,
    ComesFrom start root build before k d front t ∧
      (Artifact.maxDepth ≤ Machine.calls → IsHeld fs t (artifact build k) d)

/-- What is held stays as long as the files stay. -/
theorem IsHeld.of_grows (h : IsHeld fs source artifactPath d) (hgrows : Grows fs gs)
    (hartifact : ∀ q, fs.LeadsTo artifactPath q → SameFile fs gs q)
    (hsource : ∀ q, fs.LeadsTo source q → SameFile fs gs q) : IsHeld gs source artifactPath d := by
  have hfound {t : Path} (ht : ∀ q, fs.LeadsTo t q → SameFile fs gs q) {q : List String}
      {bytes : List UInt8} {time : Int} (hfind : fs.find true t = .ok (.node q (.file bytes time))) :
      gs.find true t = .ok (.node q (.file bytes time)) :=
    find_file_of_grows hgrows (ht q (find_leadsTo hfind (.inl rfl))) hfind
  obtain ⟨q, old, made, text, hfind, htext, hd⟩ := Artifact.exists_of_load h.load
  have hfind' := hfound hartifact hfind
  refine ⟨Artifact.load_of_find hfind' htext hd, ?_⟩
  rcases h.source with hparse | hfresh | hdirectory
  · obtain ⟨r, old', time', hread, hdocument⟩ := parseFile_eq_ok_iff.mp hparse
    exact .inl (parseFile_eq_ok_iff.mpr ⟨r, old', time', hfound hsource hread, hdocument⟩)
  · obtain ⟨made', changed, hmade, hchanged, hlt⟩ := isFresh_iff.mp hfresh
    obtain ⟨r, n, hread, hn⟩ := time?_eq_some.mp hchanged
    rcases hn with ⟨old', rfl⟩ | rfl
    · refine .inr (.inl (isFresh_iff.mpr ⟨made', changed, ?_, ?_, hlt⟩))
      · rw [← hmade, time?, time?, stat, stat, hfind', hfind]
      · rw [← hchanged, time?, time?, stat, stat, hfound hsource hread, hread]
    · obtain ⟨_, hb⟩ := IsDirectory.grows ⟨_, hread⟩ hgrows
      exact .inr (.inr (isDirectory_iff.mpr ⟨_, _, hb⟩))
  · obtain ⟨b, time', hread⟩ := isDirectory_iff.mp hdirectory
    obtain ⟨_, hb⟩ := IsDirectory.grows ⟨_, hread⟩ hgrows
    exact .inr (.inr (isDirectory_iff.mpr ⟨_, _, hb⟩))

/-- What is held stays when another artifact is saved. -/
theorem IsHeld.saves (h : IsHeld fs source artifactPath d) (hsaves : Saves fs gs p place bytes)
    (hartifact : ¬ fs.LeadsTo artifactPath place) (hsource : ¬ fs.LeadsTo source place) :
    IsHeld gs source artifactPath d := by
  have hsame {t : Path} (ht : ¬ fs.LeadsTo t place) (q : List String) (hq : fs.LeadsTo t q) :
      SameFile fs gs q :=
    fun _ _ => hsaves.file_iff fun heq => ht (heq ▸ hq)
  exact h.of_grows hsaves.grows (hsame hartifact) (hsame hsource)

theorem ComesFrom.append {front : List Path} (h : ComesFrom start root build before k d front t)
    (rest : List Path) : ComesFrom start root build (before ++ rest) k d front t :=
  ⟨h.among.trans (List.prefix_append _ _), h.key, h.first, h.document⟩

omit [Machine] in
theorem mem_of_among {front : List Path} (h : front ++ [t] <+: before) : t ∈ before :=
  h.subset (List.mem_append_right _ (List.mem_singleton_self t))

omit [Machine] in
theorem get?_concat {α β : Type} [DecidableEq α] {key key' : α} {value value' : β}
    {es : List (α × β)} (h : Entries.get? key (es ++ [(key', value')]) = some value) :
    Entries.get? key es = some value ∨ key = key' ∧ value = value' := by
  cases hes : Entries.get? key es with
  | some v =>
    rw [get?_append, hes] at h
    exact .inl h
  | none =>
    rw [get?_append, hes, Option.none_or, Entries.get?] at h
    split at h
    · exact .inr ⟨(‹key' = key›).symm, (Option.some.inj h).symm⟩
    · cases h

/-- The turn of a source. -/
theorem Progress.next (h : Progress start root build before done fs)
    (hapart : IsApart start root build {t | t ∈ before ++ [s]})
    (hrun : files before build root start = (.ok done, fs))
    (hnext : filesInto build root [s] done fs = (.ok docs, gs)) :
    Progress start root build (before ++ [s]) docs gs := by
  have hmore : {t | t ∈ before} ⊆ {t | t ∈ before ++ [s]} :=
    fun t ht => List.mem_append_left [s] ht
  have hbuilt := h.toIsBuilt.mono hmore
  obtain ⟨k, hk, hturn⟩ := filesInto_singleton hnext
  have hkey := hbuilt.key_start hk
  have hs : HasKey start root {t | t ∈ before ++ [s]} s k :=
    ⟨List.mem_append_right _ (List.mem_singleton_self s), hkey⟩
  rcases hturn with ⟨⟨d, hd⟩, rfl, rfl⟩ | ⟨d, hnone, rfl, hfile⟩
  · refine ⟨hbuilt, List.forall_mem_append.mpr
      ⟨h.keys, List.forall_mem_singleton.mpr ⟨k, d, hkey, hd⟩⟩, fun l d' hd' => ?_⟩
    obtain ⟨front, t, hfrom, hheld⟩ := h.entry l d' hd'
    exact ⟨front, t, hfrom.append [s], hheld⟩
  have hadded : Entries.get? k (done ++ [(k, d)]) = some d := by
    rw [get?_append, hnone]
    simp [Entries.get?]
  have hfrom : ComesFrom start root build (before ++ [s]) k d before s := by
    refine ⟨List.prefix_refl _, hkey, fun f hf heq => ?_, ?_⟩
    · obtain ⟨l, d', hl, hd'⟩ := h.keys f hf
      obtain rfl := Except.ok.inj (heq.symm.trans hl)
      rw [hnone] at hd'
      cases hd'
    · rw [hrun]
      exact hasDocument_of_file (by rw [hfile])
  have hkeys (t : Path) (ht : t ∈ before ++ [s]) : ∃ l d', key start root t = .ok l ∧
      Entries.get? l (done ++ [(k, d)]) = some d' := by
    rcases List.mem_append.mp ht with ht | ht
    · obtain ⟨l, d', hl, hd'⟩ := h.keys t ht
      exact ⟨l, d', hl, by rw [get?_append, hd', Option.some_or]⟩
    · obtain rfl := List.mem_singleton.mp ht
      exact ⟨k, d, hkey, hadded⟩
  have hentry (hold : ∀ l d', Entries.get? l done = some d' → ∃ front t,
      ComesFrom start root build before l d' front t ∧
        (Artifact.maxDepth ≤ Machine.calls → IsHeld gs t (artifact build l) d'))
      (hnew : Artifact.maxDepth ≤ Machine.calls → IsHeld gs s (artifact build k) d)
      (l : String) (d' : Document) (hd' : Entries.get? l (done ++ [(k, d)]) = some d') :
      ∃ front t, ComesFrom start root build (before ++ [s]) l d' front t ∧
        (Artifact.maxDepth ≤ Machine.calls → IsHeld gs t (artifact build l) d') := by
    rcases get?_concat hd' with hd' | ⟨rfl, rfl⟩
    · obtain ⟨front, t, hfrom', hheld⟩ := hold l d' hd'
      exact ⟨front, t, hfrom'.append [s], hheld⟩
    · exact ⟨before, s, hfrom, hnew⟩
  rcases file_eq_ok hfile with ⟨rfl, hfresh, hload⟩ | ⟨hparse, hsave⟩
  · exact ⟨hbuilt, hkeys, hentry h.entry fun _ => ⟨hload, .inr (.inl hfresh)⟩⟩
  obtain ⟨hnesting, place, hsaves⟩ := Artifact.exists_saves hsave
  have hplace : IsArtifactAt start root build {t | t ∈ before ++ [s]} k place :=
    ⟨⟨s, hs⟩, h.links.leadsTo.mp hsaves.leads⟩
  have hparsed := hbuilt.parseFile_saves hapart hplace hsaves hs.1 hparse
  refine ⟨hbuilt.saves hapart hs hparse hsaves, hkeys, hentry (fun l d' hd' => ?_)
    fun hcalls => ⟨Artifact.load_bytesOf (isPlain_of_parseFile hparse) hnesting hcalls hsaves.found,
      .inl hparsed⟩⟩
  obtain ⟨front, t, hfrom', hheld⟩ := h.entry l d' hd'
  have ht : t ∈ before ++ [s] := hmore (mem_of_among hfrom'.among)
  refine ⟨front, t, hfrom', fun hcalls =>
    (hheld hcalls).saves hsaves (fun hleads => ?_) fun hleads => ?_⟩
  · -- another key has another artifact
    obtain rfl := hapart.artifact_unique
      ⟨⟨t, ht, hfrom'.key⟩, h.links.leadsTo.mp hleads⟩ hplace
    rw [hnone] at hd'
    cases hd'
  · exact hapart.source_ne ht (h.links.leadsTo.mp hleads) hplace rfl

/-- The turns of all sources. -/
theorem files_progress (hapart : IsApart start root build {t | t ∈ before})
    (hrun : files before build root start = (.ok done, fs)) :
    Progress start root build before done fs := by
  induction before using List.reverseRecOn generalizing done fs with
  | nil =>
    cases hrun
    exact ⟨.refl hapart.sound, List.forall_mem_nil _, fun k d hd => by cases hd⟩
  | append_singleton before s ih =>
    have hmore : {t | t ∈ before} ⊆ {t | t ∈ before ++ [s]} :=
      fun t ht => List.mem_append_left [s] ht
    cases hfront : files before build root start with
    | mk result mid =>
      cases result with
      | error e =>
        unfold files at hrun hfront
        rw [filesInto_append, hfront] at hrun
        cases hrun
      | ok done' =>
        rw [files_concat hfront] at hrun
        exact (ih (hapart.mono hmore) hfront).next hapart hfront hrun

/-- An error comes up in the turn of some source. -/
theorem exists_turn_of_error {sources : List Path} {e : CompileError}
    (hrun : files sources build root fs = (.error e, gs)) : ∃ before s after docs mid,
      sources = before ++ s :: after ∧ files before build root fs = (.ok docs, mid) ∧
        filesInto build root [s] docs mid = (.error e, gs) := by
  induction sources using List.reverseRecOn with
  | nil => cases hrun
  | append_singleton front s ih =>
    cases hfront : files front build root fs with
    | mk result mid =>
      cases result with
      | error e' =>
        have hsame : files (front ++ [s]) build root fs = (.error e', mid) := by
          unfold files at hfront ⊢
          rw [filesInto_append, hfront]
        rw [hsame] at hrun
        cases hrun
        obtain ⟨before, t, after, docs, mid', rfl, hbefore, hturn⟩ := ih hfront
        exact ⟨before, t, after ++ [s], docs, mid', by simp, hbefore, hturn⟩
      | ok docs =>
        rw [files_concat hfront] at hrun
        exact ⟨front, s, [], docs, mid, rfl, hfront, hrun⟩

end Compile

end GraphQLDoc
