import GraphQLDoc.Proofs.FileSystem.Links
import GraphQLDoc.Proofs.Json.Printable
import GraphQLDoc.Proofs.Workspace.Key

/-!
What a compilation holds for its sources. Sources are told apart by their paths below the root, short
of the last suffix and divided at backslashes: of two that differ in nothing else the first is compiled,
and the second is passed over or takes the artifact of the first for its own.
-/
namespace GraphQLDoc.Compile

open FileSystem (KeepsLinks)

/-! Sources below the root. -/

/-- A source that really lies below the root, under names that a file system can have. -/
structure LiesBelow (fs : FileSystem) (root source : Path) (parts : List String) : Prop where
  real : ∃ p q, fs.resolve source = .ok p ∧ fs.resolve root = .ok q ∧ q.behind? p = some parts
  nonempty : parts ≠ []
  name : ∀ part ∈ parts, Path.isPart part = true ∧ '/' ∉ part.toList

theorem LiesBelow.of_plain {fs : FileSystem} {root source : Path} {parts : List String}
    (hreal : ∃ p q, fs.resolve source = .ok p ∧ fs.resolve root = .ok q ∧ q.behind? p = some parts)
    (h : Path.IsPlain parts) : LiesBelow fs root source parts :=
  ⟨hreal, h.nonempty, fun part hpart => ⟨(h.part part hpart).isPart, (h.part part hpart).slash⟩⟩

theorem LiesBelow.key_eq {fs : FileSystem} {root source : Path} {parts : List String}
    (h : LiesBelow fs root source parts) : key fs root source = .ok (keyOfParts parts) := by
  obtain ⟨p, q, hp, hq, hparts⟩ := h.real
  unfold key
  simp only [hp, hq, hparts]
  cases parts with
  | nil => exact absurd rfl h.nonempty
  | cons part rest => rfl

/-- The same real path below the same root is the same real path. -/
theorem LiesBelow.resolve_eq_iff {fs : FileSystem} {root s t : Path} {ps qs : List String}
    (hs : LiesBelow fs root s ps) (ht : LiesBelow fs root t qs) :
    fs.resolve s = fs.resolve t ↔ ps = qs := by
  obtain ⟨p, r, hp, hr, hps⟩ := hs.real
  obtain ⟨q, r', hq, hr', hqs⟩ := ht.real
  obtain rfl := Except.ok.inj (hr.symm.trans hr')
  rw [hp, hq]
  constructor
  · intro h
    obtain rfl := Except.ok.inj h
    exact Option.some.inj (hps.symm.trans hqs)
  · rintro rfl
    rw [Path.eq_of_behind? hps, Path.eq_of_behind? hqs]

/-- The key that a source has after files and directories were written. -/
theorem LiesBelow.key_of_keepsLinks {fs gs : FileSystem} {root source : Path} {parts : List String}
    {k : String} (h : LiesBelow fs root source parts) (hlinks : KeepsLinks fs gs)
    (hk : key gs root source = .ok k) : k = keyOfParts parts := by
  obtain ⟨p, q, hp, hq, hparts⟩ := h.real
  unfold key at hk
  split at hk
  case h_5 p' q' hp' hq' =>
    obtain rfl := hlinks.resolve_eq hp hp'
    obtain rfl := hlinks.resolve_eq hq hq'
    rw [hparts] at hk
    cases parts with
    | nil => exact absurd rfl h.nonempty
    | cons part rest => exact (Except.ok.inj hk).symm
  all_goals exact nomatch hk

theorem get?_append {α β : Type} [DecidableEq α] (k : α) (es fs : List (α × β)) :
    Entries.get? k (es ++ fs) = (Entries.get? k es).or (Entries.get? k fs) := by
  induction es with
  | nil => rfl
  | cons e es ih =>
    obtain ⟨k', v⟩ := e
    simp only [List.cons_append, Entries.get?]
    split
    · rfl
    · exact ih

variable [Machine]

/-! Compiling changes no links. -/

theorem keepsLinks_save (d : Document) (p : Path) (fs : FileSystem) :
    KeepsLinks fs (Artifact.save d p fs).2 := by
  have hmade := KeepsLinks.ensureWithin Machine.calls p.parent fs
  unfold Artifact.save FileSystem.ensureDirectories
  split
  case h_1 e made hensure => rwa [hensure] at hmade
  case h_2 made hensure =>
    rw [hensure] at hmade
    split
    case h_1 => exact hmade
    case h_2 text htext =>
      split
      case h_1 written hwritten => exact hmade.trans (.write hwritten)
      case h_2 => exact hmade

theorem keepsLinks_rebuild (source artifact : Path) (fs : FileSystem) :
    KeepsLinks fs (rebuild source artifact fs).2 := by
  unfold rebuild
  split
  case h_1 => split <;> exact .refl fs
  case h_2 d hd =>
    have hsave := keepsLinks_save d artifact fs
    split
    case h_1 written hwritten => rwa [hwritten] at hsave
    case h_2 e made hmade => rwa [hmade] at hsave

theorem keepsLinks_file (source artifact : Path) (fs : FileSystem) :
    KeepsLinks fs (file source artifact fs).2 := by
  unfold file
  split
  · exact .refl fs
  · exact keepsLinks_rebuild source artifact fs
  · split
    · exact .refl fs
    · split
      · exact .refl fs
      · exact keepsLinks_rebuild source artifact fs

/-! One source. -/

/-- A source has to be compiled anew: its artifact is not newer, or it cannot be read. -/
def IsStale (fs : FileSystem) (source artifact : Path) : Prop :=
  isFresh fs source artifact = .ok false ∨
    isFresh fs source artifact = .ok true ∧
      ∃ e, Artifact.load fs artifact = .error e ∧ e.fault? = none

/-- The document of a source: what its artifact says, if that is newer and can be read, and otherwise
what the source says. -/
inductive HasDocument (fs : FileSystem) (source artifact : Path) (d : Document) : Prop where
  | artifact (fresh : isFresh fs source artifact = .ok true)
      (load : Artifact.load fs artifact = .ok d)
  | source (stale : IsStale fs source artifact) (parse : parseFile fs source = .ok d)

theorem parseFile_of_rebuild {source artifact : Path} {fs : FileSystem} {d : Document}
    (h : (rebuild source artifact fs).1 = .ok d) : parseFile fs source = .ok d := by
  unfold rebuild at h
  split at h
  case h_1 => split at h <;> exact nomatch h
  case h_2 d' hd =>
    split at h
    · exact hd.trans (congrArg Except.ok (Except.ok.inj h))
    · exact nomatch h

theorem hasDocument_of_file {source artifact : Path} {fs : FileSystem} {d : Document}
    (h : (file source artifact fs).1 = .ok d) : HasDocument fs source artifact d := by
  unfold file at h
  split at h
  case h_1 => exact nomatch h
  case h_2 hfresh => exact .source (.inl hfresh) (parseFile_of_rebuild h)
  case h_3 hfresh =>
    split at h
    case h_1 d' hload => exact .artifact hfresh (hload.trans (congrArg Except.ok (Except.ok.inj h)))
    case h_2 e hload =>
      split at h
      case h_1 => exact nomatch h
      case h_2 hfault => exact .source (.inr ⟨hfresh, e, hload, hfault⟩) (parseFile_of_rebuild h)

/-! All sources. -/

/-- The source that a key came from: the first with this key, compiled behind those before it. -/
def Origin (build root : Path) (sources : List Path) (done : List (String × Document))
    (fs : FileSystem) (k : String) (d : Document) : Prop :=
  ∃ before t after, sources = before ++ t :: after ∧
    (∃ gs, KeepsLinks fs gs ∧ key gs root t = .ok k) ∧
    HasDocument (filesInto build root before done fs).2 t (artifact build k) d

variable {build root : Path} {sources : List Path} {done docs : List (String × Document)}
  {fs : FileSystem}

/-- One more source in front. -/
theorem Origin.cons {source : Path} {done' : List (String × Document)} {gs : FileSystem}
    (hlinks : KeepsLinks fs gs)
    (hstep : ∀ before, filesInto build root (source :: before) done fs =
      filesInto build root before done' gs) {k : String} {d : Document}
    (h : Origin build root sources done' gs k d) : Origin build root (source :: sources) done fs k d := by
  obtain ⟨before, t, after, hsources, ⟨hs, hgs, hk⟩, hd⟩ := h
  exact ⟨source :: before, t, after, congrArg (source :: ·) hsources, ⟨hs, hlinks.trans hgs, hk⟩,
    (hstep before).symm ▸ hd⟩

/-- The first source: its key is there already, or it is compiled and its entry is added. -/
theorem filesInto_cons {source : Path} {rest : List Path}
    (h : (filesInto build root (source :: rest) done fs).1 = .ok docs) :
    ∃ k done' gs, key fs root source = .ok k ∧ KeepsLinks fs gs ∧
      (∀ before, filesInto build root (source :: before) done fs =
        filesInto build root before done' gs) ∧
      ((∃ d, Entries.get? k done = some d ∧ done' = done) ∨
        ∃ d, Entries.get? k done = none ∧ done' = done ++ [(k, d)] ∧
          HasDocument fs source (artifact build k) d) := by
  cases hk : key fs root source with
  | error e =>
    rw [filesInto, hk] at h
    exact nomatch h
  | ok k =>
    cases hdone : Entries.get? k done with
    | some d =>
      refine ⟨k, done, fs, rfl, .refl fs, fun before => ?_, .inl ⟨d, hdone, rfl⟩⟩
      rw [filesInto, hk]
      simp only [hdone, Option.isSome_some, if_true]
    | none =>
      have hlinks := keepsLinks_file source (artifact build k) fs
      have hdocument := @hasDocument_of_file _ source (artifact build k) fs
      cases hfile : file source (artifact build k) fs with
      | mk result gs =>
        rw [hfile] at hlinks hdocument
        cases result with
        | error e =>
          rw [filesInto, hk] at h
          simp only [hdone, hfile] at h
          exact nomatch h
        | ok d =>
          refine ⟨k, done ++ [(k, d)], gs, rfl, hlinks, fun before => ?_,
            .inr ⟨d, hdone, rfl, hdocument rfl⟩⟩
          rw [filesInto, hk]
          simp only [hdone, hfile]
          rfl

/-- What is there stays, and each source has an entry under its key. -/
theorem filesInto_ok (h : (filesInto build root sources done fs).1 = .ok docs) :
    (∀ k d, Entries.get? k done = some d → Entries.get? k docs = some d) ∧
    ∀ s ∈ sources, ∃ gs k, KeepsLinks fs gs ∧ key gs root s = .ok k ∧
      ∃ d, Entries.get? k docs = some d ∧
        (Entries.get? k done = some d ∨ Origin build root sources done fs k d) := by
  induction sources generalizing done fs with
  | nil =>
    obtain rfl := Except.ok.inj h
    exact ⟨fun _ _ h => h, nofun⟩
  | cons source rest ih =>
    obtain ⟨k, done', gs, hk, hlinks, hstep, hadded⟩ := filesInto_cons h
    rw [hstep] at h
    obtain ⟨hkept, hrest⟩ := ih h
    -- an entry that the first source leaves was there before or comes from the first source
    have hold (k' : String) (d' : Document) (hd' : Entries.get? k' done' = some d') :
        Entries.get? k' done = some d' ∨ Origin build root (source :: rest) done fs k' d' := by
      rcases hadded with ⟨d, hd, rfl⟩ | ⟨d, hnone, rfl, hdoc⟩
      · exact .inl hd'
      · rw [get?_append] at hd'
        cases hdone : Entries.get? k' done with
        | some d'' => exact .inl (by rwa [hdone] at hd')
        | none =>
          rw [hdone] at hd'
          by_cases hkk : k = k'
          · subst hkk
            obtain rfl : d = d' := by simpa [Entries.get?] using hd'
            exact .inr ⟨[], source, rest, rfl, ⟨fs, .refl fs, hk⟩, hdoc⟩
          · simp [Entries.get?, hkk] at hd'
    have hfound : ∃ d, Entries.get? k done' = some d := by
      rcases hadded with ⟨d, hd, rfl⟩ | ⟨d, hnone, rfl, -⟩
      · exact ⟨d, hd⟩
      · exact ⟨d, by rw [get?_append, hnone]; simp [Entries.get?]⟩
    refine ⟨fun k' d' hd' => hkept k' d' ?_, List.forall_mem_cons.mpr ⟨?_, fun s hs => ?_⟩⟩
    · rcases hadded with ⟨d, hd, rfl⟩ | ⟨d, hnone, rfl, -⟩
      · exact hd'
      · rw [get?_append, hd', Option.some_or]
    · obtain ⟨d, hd⟩ := hfound
      exact ⟨fs, k, .refl fs, hk, d, hkept k d hd, hold k d hd⟩
    · obtain ⟨gs', k', hgs', hk', d, hd, horigin⟩ := hrest s hs
      exact ⟨gs', k', hlinks.trans hgs', hk', d, hd,
        horigin.elim (hold k' d) fun h => .inr (h.cons hlinks hstep)⟩

/-! The mapping. -/

/-- Sources that are told apart by the names which lead to their artifacts. -/
structure AreDistinct (fs : FileSystem) (root : Path) (sources : List Path)
    (parts : Path → List String) : Prop where
  lies : ∀ s ∈ sources, LiesBelow fs root s (parts s)
  apart : ∀ s ∈ sources, ∀ t ∈ sources, writtenNames (parts s) = writtenNames (parts t) →
    parts s = parts t

/-- Different sources have different keys and artifacts, and the mapping holds the document of each
under its key: what compiling gave for it when it was its turn, or for another path to it. -/
theorem files_keep_sources {parts : Path → List String}
    (hdistinct : AreDistinct fs root sources parts) (h : (files sources build root fs).1 = .ok docs) :
    (∀ s ∈ sources, ∀ t ∈ sources, fs.resolve s ≠ fs.resolve t →
      key fs root s ≠ key fs root t ∧
        artifact build (keyOfParts (parts s)) ≠ artifact build (keyOfParts (parts t))) ∧
    ∀ s ∈ sources, key fs root s = .ok (keyOfParts (parts s)) ∧
      ∃ before t after d, sources = before ++ t :: after ∧ fs.resolve t = fs.resolve s ∧
        HasDocument (files before build root fs).2 t (artifact build (keyOfParts (parts s))) d ∧
        Entries.get? (keyOfParts (parts s)) docs = some d := by
  obtain ⟨hlies, hapart⟩ := hdistinct
  have hsame : ∀ s ∈ sources, ∀ t ∈ sources,
      artifact build (keyOfParts (parts s)) = artifact build (keyOfParts (parts t)) →
        fs.resolve s = fs.resolve t := by
    intro s hs t ht hartifact
    refine ((hlies s hs).resolve_eq_iff (hlies t ht)).mpr (hapart s hs t ht ?_)
    exact (artifact_eq_iff_writtenNames (fun part hpart => ((hlies s hs).name part hpart).2)
      (fun part hpart => ((hlies t ht).name part hpart).2) build).mp hartifact
  constructor
  · intro s hs t ht hne
    have hartifact := mt (hsame s hs t ht) hne
    rw [(hlies s hs).key_eq, (hlies t ht).key_eq, Ne, Except.ok.injEq]
    exact ⟨fun hkey => hartifact (congrArg (artifact build) hkey), hartifact⟩
  · intro s hs
    refine ⟨(hlies s hs).key_eq, ?_⟩
    obtain ⟨gs, k, hlinks, hk, d, hd, hold | horigin⟩ := (filesInto_ok h).2 s hs
    · exact nomatch hold
    · obtain rfl := (hlies s hs).key_of_keepsLinks hlinks hk
      obtain ⟨before, t, after, hsources, ⟨gs', hlinks', hk'⟩, hdoc⟩ := horigin
      have ht : t ∈ sources := hsources ▸ List.mem_append_right before List.mem_cons_self
      have hkey := (hlies t ht).key_of_keepsLinks hlinks' hk'
      exact ⟨before, t, after, d, hsources,
        hsame t ht s hs (congrArg (artifact build) hkey.symm), hdoc, hd⟩

/-- A workspace `w` with the artifacts of `a` and of `b/c`, and with two sources named `a`. -/
def exampleFiles : FileSystem where
  nodes :=
    let artifact := FileNode.file (Artifact.bytesOf ⟨[]⟩) 2
    [(["w"], .directory 1), (["w", "a.graphql"], .file [] 1), (["w", "a.gql"], .file [] 1),
      (["w", "b"], .directory 1), (["w", "b", "c.graphql"], .file [] 1),
      (["w", "build"], .directory 2), (["w", "build", "a.graphql.json"], artifact),
      (["w", "build", "b"], .directory 2), (["w", "build", "b", "c.graphql.json"], artifact)]
  workingDirectory := ["w"]
  now := 3

/-- A workspace `w` with a source `a\b`, a source `b` in a directory `a`, and an artifact of the key that
both have. -/
def backslashFiles : FileSystem where
  nodes :=
    [(["w"], .directory 1), (["w", "a\\b.graphql"], .file [] 1), (["w", "a"], .directory 1),
      (["w", "a", "b.graphql"], .file [] 1), (["w", "build"], .directory 2),
      (["w", "build", "a"], .directory 2),
      (["w", "build", "a", "b.graphql.json"],
        .file (Artifact.bytesOf ⟨[]⟩) 2)]
  workingDirectory := ["w"]
  now := 3

/-- Two files have the same key, and only one of them is in the mapping. -/
def PassesOver (fs : FileSystem) (s t : Path) (k : String) : Prop :=
  ((files [s, t] (.ofString "build") .here fs).1.toOption.map fun docs => docs.map Prod.fst) =
      some [k] ∧
    fs.isFile s = true ∧ fs.isFile t = true ∧ fs.resolve s ≠ fs.resolve t ∧
    (key fs .here s).toOption = some k ∧ (key fs .here t).toOption = some k

omit [Machine] in
/-- Files that differ in their suffixes share a key, and so do files that differ in a backslash and a
slash: the second one is passed over. -/
theorem files_pass_over_same_key :
    @PassesOver .usual exampleFiles (.ofString "a.graphql") (.ofString "a.gql") "a" ∧
      @PassesOver .usual backslashFiles (.ofString "a\\b.graphql") (.ofString "a/b.graphql") "a/b" := by
  constructor <;> refine ⟨?_, ?_, ?_, ?_, ?_, ?_⟩ <;> decide +kernel

omit [Machine] in
theorem exampleFiles_distinct :
    AreDistinct exampleFiles .here [.ofString "a.graphql", .ofString "b/c.graphql"] Path.parts where
  lies s hs := by
    rcases List.mem_pair.mp hs with rfl | rfl
    · refine .of_plain ⟨.absolute ["w", "a.graphql"], .absolute ["w"], ?_, ?_, ?_⟩ ?_ <;>
        decide +kernel
    · refine .of_plain ⟨.absolute ["w", "b", "c.graphql"], .absolute ["w"], ?_, ?_, ?_⟩ ?_ <;>
        decide +kernel
  apart := by decide +kernel

omit [Machine] in
/-- Two files with different names are both in the mapping. -/
theorem exampleFiles_keep_sources : ∃ docs,
    (@files .usual [.ofString "a.graphql", .ofString "b/c.graphql"] (.ofString "build") .here
      exampleFiles).1 = .ok docs ∧
    (key exampleFiles .here (.ofString "a.graphql") ≠
      key exampleFiles .here (.ofString "b/c.graphql")) ∧
    ∃ d, Entries.get? (keyOfParts ["b", "c.graphql"]) docs = some d := by
  have hok : (@files .usual [.ofString "a.graphql", .ofString "b/c.graphql"] (.ofString "build") .here
      exampleFiles).1.toOption.isSome = true := by decide +kernel
  cases hdocs : (@files .usual [.ofString "a.graphql", .ofString "b/c.graphql"] (.ofString "build")
      .here exampleFiles).1 with
  | error e =>
    rw [hdocs] at hok
    exact nomatch hok
  | ok docs =>
    obtain ⟨hapart, hholds⟩ := @files_keep_sources .usual _ _ _ _ _ _ exampleFiles_distinct hdocs
    have hne : exampleFiles.resolve (.ofString "a.graphql") ≠
        exampleFiles.resolve (.ofString "b/c.graphql") := by decide +kernel
    obtain ⟨-, before, t, after, d, -, -, -, hd⟩ := hholds (.ofString "b/c.graphql") (by simp)
    exact ⟨docs, rfl, (hapart _ (by simp) _ (by simp) hne).1, d, hd⟩

end GraphQLDoc.Compile
