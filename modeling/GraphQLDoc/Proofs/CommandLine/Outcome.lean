import GraphQLDoc.Proofs.CommandLine.Check
import GraphQLDoc.Proofs.Parse.Integers

/-!
How checking a workspace ends. There is an exit code, zero exactly where nothing is wrong, unless the
configuration names no build directory or no pattern, a path leads around in links, a path or a name is
too long, an integer has too many digits to be read, an artifact cannot be written, or directories,
values, types or the containers of an artifact are nested in each other too deeply.
-/
namespace GraphQLDoc

open FileSystem

/-! What is there for a compilation. -/

namespace Compile

variable {fs gs : FileSystem} {root build s source artifactPath : Path} {list : List Path}

/-- The key of a file is found, or it is told that the file is not below the root. -/
theorem report_of_key {e : CompileError} (h : fs.IsSound) (hs : fs.isFile s = true)
    (hroot : fs.isDirectory root = true) (hk : key fs root s = .error e) :
    ∃ text, report e = some text := by
  obtain ⟨q, bytes, time, hfind⟩ := isFile_iff.mp hs
  obtain ⟨r, made, hfindRoot⟩ := isDirectory_iff.mp hroot
  have hq := h.resolve_of_leadsTo (find_leadsTo hfind (.inl rfl))
  have hr := h.resolve_of_leadsTo (find_leadsTo hfindRoot (.inl rfl))
  unfold key at hk
  rw [hq, hr] at hk
  dsimp only at hk
  split at hk
  · cases hk
    exact ⟨_, rfl⟩
  · -- a directory is no file
    rename_i hbehind
    have heq := Path.eq_of_behind? hbehind
    rw [List.append_nil] at heq
    obtain rfl : q = r := congrArg Path.parts heq
    cases (find_isIn hfind).symm.trans (find_isIn hfindRoot)
  · cases hk

/-- An integer of a text has more digits than can be read. -/
def HasLongInteger (text : List Char) : Prop :=
  ∃ d, derive .document text = .ok d ∧
    ∃ a ∈ d.tokens, a.terminal = .int ∧ Json.maxIntegerDigits < a.digitCount

variable [Machine]

theorem report_of_parseDocument {text : List Char} {e : ParseError}
    (h : parseDocument text = .error e) : (∃ report, e.report? = some report) ∨
      HasLongInteger text ∨ IsNestedTooDeeply .document text := by
  cases e with
  | malformed e => exact .inl ⟨_, rfl⟩
  | conversion e =>
    have hfault : RefusesOnly (IsIntegerFault .document text) (parseDocument text) :=
      isIntegerFault_parseWith (fun _ _ _ _ => Conversion.gives_document) fun _ => .of_document
    rw [h] at hfault
    rcases hfault with ⟨p, span, rfl⟩ | ⟨d, hd, a, ha, hint, hlong, n, rfl⟩ | ⟨rfl, hdeep⟩
    · exact .inl ⟨_, rfl⟩
    · exact .inr (.inl ⟨d, hd, a, ha, hint, hlong⟩)
    · exact .inr (.inr hdeep)

/-- Why a source stops compiling without an error that is told, when some files are there. -/
inductive Stops (fs : FileSystem) (source artifactPath : Path) : Fault → Prop where
  | integer {bytes : List UInt8} {text : List Char} {e : SourceError}
      (hread : fs.read source = .ok bytes) (htext : textOfFile bytes = .ok text)
      (hlong : HasLongInteger text) : Stops fs source artifactPath (.source e)
  | value {bytes : List UInt8} {text : List Char} {e : SourceError}
      (hread : fs.read source = .ok bytes) (htext : textOfFile bytes = .ok text)
      (hdeep : IsNestedTooDeeply .document text) : Stops fs source artifactPath (.source e)
  | node {d : Document} (hparse : parseFile fs source = .ok d) (hdeep : maxNesting < d.nesting) :
      Stops fs source artifactPath (.dump .tooDeep)
  | artifact {d : Document} {e : FileError} (hparse : parseFile fs source = .ok d)
      (hsave : (Artifact.save d artifactPath fs).1 = .error (.file e)) :
      Stops fs source artifactPath (.file e)
  | name (h : fs.stat artifactPath = .error .nameTooLong) : Stops fs source artifactPath (.file .nameTooLong)
  | container {bytes : List UInt8} {text : List Char} {container : String}
      (hread : fs.read artifactPath = .ok bytes) (htext : textOfFile bytes = .ok text)
      (hdeep : Artifact.deserialize text = .error (.json (.tooDeep container))) :
      Stops fs source artifactPath (.artifact container)

theorem stops_of_save {d : Document} {f : Fault} (hparse : parseFile fs source = .ok d)
    (hsave : (Artifact.save d artifactPath fs).1 = .error f) : Stops fs source artifactPath f := by
  have hfault : (∃ e, f = .file e) ∨ ∃ e, Artifact.serialize d = .error e ∧ f = .dump e := by
    unfold Artifact.save at hsave
    split at hsave
    · cases hsave
      exact .inl ⟨_, rfl⟩
    · split at hsave
      · rename_i e hdump
        cases hsave
        exact .inr ⟨e, hdump, rfl⟩
      · split at hsave
        · cases hsave
        · cases hsave
          exact .inl ⟨_, rfl⟩
  rcases hfault with ⟨e, rfl⟩ | ⟨e, hdump, rfl⟩
  · exact .artifact hparse hsave
  · by_cases hnesting : d.nesting ≤ maxNesting
    · rw [Artifact.serialize_eq hnesting] at hdump
      cases hdump
    · have hdeep := Nat.not_le.mp hnesting
      rw [Artifact.serialize_tooDeep hdeep] at hdump
      cases hdump
      exact .node hparse hdeep

theorem stops_of_parseFile {e : SourceError} (hs : fs.isFile source = true)
    (h : parseFile fs source = .error e) (hreport : e.report? = none) :
    Stops fs source artifactPath (.source e) := by
  obtain ⟨q, bytes, time, hfind⟩ := isFile_iff.mp hs
  have hread : fs.read source = .ok bytes := read_eq_ok.mpr ⟨q, time, hfind⟩
  unfold parseFile readText at h
  rw [hread] at h
  cases htext : textOfFile bytes with
  | error f =>
    simp only [htext, Except.mapError] at h
    cases h
    cases hreport
  | ok text =>
    simp only [htext, Except.mapError] at h
    cases hparse : parseDocument text with
    | ok d =>
      rw [hparse] at h
      cases h
    | error e' =>
      rw [hparse] at h
      cases h
      rcases report_of_parseDocument hparse with ⟨report, he⟩ | hlong | hdeep
      · cases he.symm.trans hreport
      · exact .integer hread htext hlong
      · exact .value hread htext hdeep

theorem stops_of_file {f : Fault} (hs : fs.isFile source = true)
    (h : file source artifactPath fs = (.error (.fault f), gs)) : Stops fs source artifactPath f := by
  have hrebuild (h : rebuild source artifactPath fs = (.error (.fault f), gs)) :
      Stops fs source artifactPath f := by
    unfold rebuild at h
    split at h
    · rename_i e hparse
      split at h
      · cases h
      · rename_i hreport
        cases h
        exact stops_of_parseFile hs hparse hreport
    · rename_i d hparse
      split at h
      · cases h
      · rename_i e made hsave
        cases h
        exact stops_of_save hparse (congrArg Prod.fst hsave)
  unfold file at h
  split at h
  · rename_i e hfresh
    cases h
    by_cases hartifact : fs.stat artifactPath = .error .nameTooLong
    · rw [isFresh, ask_eq_error.mpr ⟨hartifact, rfl⟩] at hfresh
      cases hfresh
      exact .name hartifact
    · obtain ⟨q, bytes, time, hfind⟩ := isFile_iff.mp hs
      obtain ⟨b, hb⟩ := exists_isFresh hartifact (stat_ne_of_find hfind)
      cases hfresh.symm.trans hb
  · exact hrebuild h
  · split at h
    · cases h
    · rename_i e hload
      split at h
      · rename_i hfault
        cases h
        obtain ⟨q, bytes, time, text, container, hfind, htext, hdeep⟩ :=
          Artifact.exists_of_load_fault hload (by rw [hfault]; exact Option.some_ne_none _)
        rw [Artifact.load_eq_of_find hfind htext, hdeep] at hload
        cases hload
        cases hfault
        exact .container (read_eq_ok.mpr ⟨q, time, hfind⟩) htext hdeep
      · exact hrebuild h

/-- A compilation of files stops, if it does not tell an error, in the turn of one of them. -/
theorem stops_of_files {f : Fault} (h : fs.IsSound) (hlist : ∀ s ∈ list, fs.isFile s = true)
    (hroot : fs.isDirectory root = true) (hrun : files list build root fs = (.error (.fault f), gs)) :
    ∃ front s k, front ++ [s] <+: list ∧ key fs root s = .ok k ∧
      Stops (files front build root fs).2 s (artifact build k) f := by
  obtain ⟨before, s, after, docs, mid, rfl, hbefore, hturn⟩ := exists_turn_of_error hrun
  have hextends : Extends fs mid := by
    have hfront := extends_filesInto build root before [] h
    rwa [show filesInto build root before [] fs = _ from hbefore] at hfront
  have hs : fs.isFile s = true := hlist s (List.mem_append_right _ List.mem_cons_self)
  have hsMid : mid.isFile s = true := hextends.grows.isFile hs
  have hrootMid : mid.isDirectory root = true := by
    obtain ⟨q, hq⟩ := isDirectory_iff.mp hroot
    exact isDirectory_iff.mpr ⟨q, IsDirectory.grows hq hextends.grows⟩
  rw [filesInto] at hturn
  cases hk : key mid root s with
  | error e =>
    rw [hk] at hturn
    cases hturn
    obtain ⟨text, htext⟩ := report_of_key hextends.sound hsMid hrootMid hk
    cases htext
  | ok k =>
    rw [hk] at hturn
    dsimp only at hturn
    split at hturn
    · cases hturn
    · cases hfile : file s (artifact build k) mid with
      | mk result made =>
        rw [hfile] at hturn
        cases result with
        | ok d => cases hturn
        | error e =>
          cases hturn
          obtain ⟨q, bytes, time, hfind⟩ := isFile_iff.mp hs
          obtain ⟨r, made, hfindRoot⟩ := isDirectory_iff.mp hroot
          have hkey := key_eq_of_leadsTo hextends.links h hextends.sound
            (find_leadsTo hfind (.inl rfl)) (find_leadsTo hfindRoot (.inl rfl))
          refine ⟨before, s, k, ⟨after, by simp⟩, hkey.symm.trans hk, ?_⟩
          rw [hbefore]
          exact stops_of_file hsMid hfile

end Compile

/-! What is there for a check. -/

namespace Sources

variable [Machine] {fs : FileSystem} {root build : Path} {found : List Path} {config : Config}

/-- Why the sources of a workspace are not found. -/
inductive Hides (fs : FileSystem) (root : Path) (config : Config) : Fault → Prop where
  | noText {points : List Nat} {point : Nat} (h : config.buildDirectory = .unpaired points) :
      Hides fs root config (.unpairedSurrogate point)
  | buildDirectory {s : String} {e : ResolveError} (h : config.buildDirectory = .text s)
      (he : fs.resolve (root.join (.ofString s)) = .error e) : Hides fs root config (.resolve e)
  | pattern {s : String} {e : Glob.PatternError} (h : .text s ∈ config.sources)
      (he : Glob.ofText s = .error e) : Hides fs root config (.pattern e)
  | selected {s : String} {cs : List Glob.Component} {p : Path} {e : ResolveError}
      (h : .text s ∈ config.sources) (hcs : Glob.ofText s = .ok cs)
      (hp : .ok p ∈ Glob.select fs cs root) (he : fs.resolve p = .error e) :
      Hides fs root config (.resolve e)
  | selection {s : String} {cs : List Glob.Component} {e : FileError}
      (h : .text s ∈ config.sources) (hcs : Glob.ofText s = .ok cs)
      (he : .error e ∈ Glob.select fs cs root) : Hides fs root config (.file e)
  | name {s : String} {cs : List Glob.Component} {p : Path}
      (h : .text s ∈ config.sources) (hcs : Glob.ofText s = .ok cs)
      (hp : .ok p ∈ Glob.select fs cs root) (hname : fs.stat p = .error .nameTooLong) :
      Hides fs root config (.file .nameTooLong)

/-- The sources so far are files, or there is a reason why they are not found. -/
def Finds (fs : FileSystem) (root : Path) (config : Config) : Except Fault (List Path) → Prop
  | .ok found => ∀ p ∈ found, fs.isFile p = true
  | .error f => Hides fs root config f

theorem Finds.foldlM {α : Type} {step : List Path → α → Except Fault (List Path)} {as : List α}
    (hstep : ∀ a ∈ as, ∀ found, (∀ p ∈ found, fs.isFile p = true) →
      Finds fs root config (step found a))
    (hfound : ∀ p ∈ found, fs.isFile p = true) : Finds fs root config (as.foldlM step found) := by
  induction as generalizing found with
  | nil => exact hfound
  | cons a as ih =>
    obtain ⟨ha, has⟩ := List.forall_mem_cons.mp hstep
    have hfirst := ha found hfound
    rw [List.foldlM_cons]
    cases hnext : step found a with
    | error f =>
      rw [hnext] at hfirst
      exact hfirst
    | ok next =>
      rw [hnext] at hfirst
      exact ih has hfirst

omit [Machine] in
theorem mem_insertInto {p q : Path} {found : List Path} (h : q ∈ p.insertInto found) :
    q = p ∨ q ∈ found := by
  induction found with
  | nil => exact .inl (List.mem_singleton.mp h)
  | cons r found ih =>
    unfold Path.insertInto at h
    split at h
    · exact List.mem_cons.mp h
    · split at h
      · exact .inr h
      · rcases List.mem_cons.mp h with rfl | h
        · exact .inr List.mem_cons_self
        · exact (ih h).imp_right (List.mem_cons_of_mem r)

theorem hides_of_buildDirectory {f : Fault}
    (h : buildDirectory fs root config.buildDirectory = .error f) : Hides fs root config f := by
  cases hbuild : config.buildDirectory with
  | unpaired points =>
    rw [hbuild] at h
    cases h
    exact .noText hbuild
  | text s =>
    rw [hbuild, buildDirectory] at h
    cases hresolve : fs.resolve (root.join (.ofString s)) with
    | ok p =>
      rw [hresolve] at h
      cases h
    | error e =>
      rw [hresolve] at h
      cases h
      exact .buildDirectory hbuild hresolve

theorem finds_add {s : String} {cs : List Glob.Component} {p : Path} (hpattern : .text s ∈ config.sources)
    (hcs : Glob.ofText s = .ok cs) (hp : .ok p ∈ Glob.select fs cs root)
    (hfound : ∀ p ∈ found, fs.isFile p = true) :
    Finds fs root config (add fs build found (.ok p)) := by
  cases hresolve : fs.resolve p with
  | error e =>
    have hadd : add fs build found (.ok p) = .error (.resolve e) := by
      rw [add_ok, hresolve]
      rfl
    rw [hadd]
    exact Hides.selected hpattern hcs hp hresolve
  | ok real =>
    cases hask : fs.ask p (fs.isFile p) with
    | error e =>
      have hadd : add fs build found (.ok p) = .error (.file e) := by
        rw [add_ok, hresolve, hask]
        rfl
      obtain ⟨hname, rfl⟩ := ask_eq_error.mp hask
      rw [hadd]
      exact Hides.name hpattern hcs hp hname
    | ok isFile =>
      obtain ⟨-, rfl⟩ := ask_eq_ok.mp hask
      have hadd : add fs build found (.ok p) =
          .ok (if fs.isFile p && (build.behind? real).isNone then p.insertInto found else found) := by
        rw [add_ok, hresolve, hask]
        rfl
      rw [hadd]
      show ∀ q ∈ if (fs.isFile p && (build.behind? real).isNone) = true then p.insertInto found
        else found, fs.isFile q = true
      split
      · rename_i hkept
        intro q hq
        rcases mem_insertInto hq with rfl | hq
        · exact (Bool.and_eq_true_iff.mp hkept).1
        · exact hfound q hq
      · exact hfound

theorem finds_addSelected {pattern : JsonString} (hpattern : pattern ∈ config.sources)
    (hfound : ∀ p ∈ found, fs.isFile p = true) :
    Finds fs root config (addSelected fs root build found pattern) := by
  cases pattern with
  | unpaired points => exact hfound
  | text s =>
    unfold addSelected
    cases hcs : Glob.ofText s with
    | error e =>
      have hselected : selected fs root (.text s) = .error (.pattern e) := by rw [selected, hcs]; rfl
      rw [hselected]
      exact Hides.pattern hpattern hcs
    | ok cs =>
      have hselected : selected fs root (.text s) = .ok (Glob.select fs cs root) := by
        rw [selected, hcs]
        rfl
      rw [hselected]
      refine Finds.foldlM (fun o ho found hfound => ?_) hfound
      cases o with
      | error e => exact Hides.selection hpattern hcs ho
      | ok p => exact finds_add hpattern hcs ho hfound

theorem files_finds (fs : FileSystem) (root : Path) (config : Config) :
    Finds fs root config (files fs root config) := by
  unfold files
  cases hbuild : buildDirectory fs root config.buildDirectory with
  | error f => exact hides_of_buildDirectory hbuild
  | ok build =>
    exact Finds.foldlM (fun _ hpattern _ hfound => finds_addSelected hpattern hfound)
      (List.forall_mem_nil _)

end Sources

namespace CommandLine

open Compile

variable {fs : FileSystem} {root : Path} {config : Config}

section Machines

variable [Machine]

/-- Nothing is wrong with the sources of a workspace: there are none, or they are compiled and their
documents have no errors. -/
def IsClean (fs : FileSystem) (root : Path) (config : Config) : Prop :=
  ∃ list, Sources.files fs root config = .ok list ∧ (list = [] ∨
    ∃ s docs, config.buildDirectory = .text s ∧
      (Compile.files list (root.join (.ofString s)) root fs).1 = .ok docs ∧
      ∃ results, Validation.validateWorkspace docs = .ok results ∧ ∀ e ∈ results, e.2.errors = [])

/-- Why a check ends without an exit code: its sources are not found, or the turn of one of them does
not come to an end. -/
inductive Breaks (fs : FileSystem) (root : Path) (config : Config) : Fault → Prop where
  | sources {f : Fault} (h : Sources.Hides fs root config f) : Breaks fs root config f
  | turn {list front : List Path} {s k : String} {p : Path} {f : Fault}
      (hlist : Sources.files fs root config = .ok list) (hbuild : config.buildDirectory = .text s)
      (hturn : front ++ [p] <+: list) (hk : Compile.key fs root p = .ok k)
      (h : Compile.Stops (Compile.files front (root.join (.ofString s)) root fs).2 p
        (Compile.artifact (root.join (.ofString s)) k) f) : Breaks fs root config f

/-- How a check may end. Files, directories and nodes may be nested as deeply as they like, and paths be
as long: what the machine or the system does not take is among the faults. Only what fits into the memory
is checked, and no path leads over a chain of links that is as long as the calls that are granted. -/
inductive Ends (fs : FileSystem) (root : Path) (config : Config) : Except Fault Nat → Prop where
  | clean (h : IsClean fs root config) : Ends fs root config (.ok 0)
  | failed (h : ¬ IsClean fs root config) : Ends fs root config (.ok 1)
  | faulted {f : Fault} (h : Breaks fs root config f) : Ends fs root config (.error f)

omit [Machine] in
theorem conclude_result {results : List (String × Validation.Result)} :
    (conclude results fs).result = .ok (if ∀ e ∈ results, e.2.errors = [] then 0 else 1) := by
  have hany : results.any (·.2.hasErrors) = true ↔ ¬ ∀ e ∈ results, e.2.errors = [] := by
    simp [Validation.Result.hasErrors]
  unfold conclude
  dsimp only
  by_cases herrors : results.any (·.2.hasErrors) = true
  · rw [if_pos herrors, if_neg (hany.mp herrors)]
    rfl
  · rw [if_neg herrors, if_pos (not_not.mp (mt hany.mpr herrors))]
    rfl

/-- A workspace with sources is clean exactly where these compile to documents without errors. -/
theorem isClean_iff {s : String} {rest : List Path}
    (hfiles : Sources.files fs root config = .ok (p :: rest))
    (hbuild : config.buildDirectory = .text s) : IsClean fs root config ↔
      ∃ docs, (Compile.files (p :: rest) (root.join (.ofString s)) root fs).1 = .ok docs ∧
        ∀ e ∈ Validation.verdicts docs, e.2.errors = [] := by
  constructor
  · rintro ⟨list, hlist, hnil | ⟨s', docs, hs', hdocs, results, hresults, hnone⟩⟩
    · rw [hnil, hfiles] at hlist
      cases hlist
    · obtain rfl := JsonString.text.inj (hbuild.symm.trans hs')
      obtain rfl := Except.ok.inj (hfiles.symm.trans hlist)
      obtain rfl := Except.ok.inj ((Validation.validateWorkspace_eq docs).symm.trans hresults)
      exact ⟨docs, hdocs, hnone⟩
  · rintro ⟨docs, hdocs, hnone⟩
    exact ⟨p :: rest, hfiles,
      .inr ⟨s, docs, hbuild, hdocs, _, Validation.validateWorkspace_eq docs, hnone⟩⟩

theorem checkSources_ends (hsound : fs.IsSound) (hdirectory : fs.isDirectory root = true) :
    Ends fs root config (checkSources root config fs).result := by
  have hfinds := Sources.files_finds fs root config
  cases hfiles : Sources.files fs root config with
  | error f =>
    rw [hfiles] at hfinds
    simp only [checkSources, hfiles]
    exact .faulted (.sources hfinds)
  | ok list =>
    rw [hfiles] at hfinds
    cases list with
    | nil =>
      simp only [checkSources, hfiles]
      exact .clean ⟨[], hfiles, .inl rfl⟩
    | cons p rest =>
      obtain ⟨s, real, hbuild, -⟩ := Sources.exists_build_of_files hfiles
      have hclean := isClean_iff hfiles hbuild
      cases hrun : Compile.files (p :: rest) (root.join (.ofString s)) root fs with
      | mk result gs =>
        rw [hrun] at hclean
        simp only [checkSources, hfiles, hbuild, hrun]
        cases result with
        | ok docs =>
          have hdocs : IsClean fs root config ↔
              ∀ e ∈ Validation.verdicts docs, e.2.errors = [] := by
            rw [hclean]
            constructor
            · rintro ⟨docs', hdocs, h⟩
              obtain rfl := Except.ok.inj hdocs
              exact h
            · exact fun h => ⟨docs, rfl, h⟩
          show Ends fs root config (validateAll docs gs).result
          rw [validateAll_eq, conclude_result]
          split
          · rename_i hnone
            exact .clean (hdocs.mpr hnone)
          · rename_i hsome
            exact .failed (mt hdocs.mp hsome)
        | error e =>
          have hfailed : ¬ IsClean fs root config := by
            intro h
            obtain ⟨docs, hdocs, -⟩ := hclean.mp h
            cases hdocs
          cases e with
          | fault f =>
            obtain ⟨front, q, k, hturn, hk, hstops⟩ :=
              Compile.stops_of_files hsound hfinds hdirectory hrun
            exact .faulted (.turn hfiles hbuild hturn hk hstops)
          | outsideRoot => exact .failed hfailed
          | source => exact .failed hfailed

theorem checkSources_of_fault {p : Path} {rest : List Path} {s : String} {f : Fault} {gs : FileSystem}
    (hfiles : Sources.files fs root config = .ok (p :: rest)) (hbuild : config.buildDirectory = .text s)
    (hrun : Compile.files (p :: rest) (root.join (.ofString s)) root fs = (.error (.fault f), gs)) :
    (checkSources root config fs).result = .error f := by
  simp only [checkSources, hfiles, hbuild, hrun]
  rfl

omit [Machine] in
/-- The working directory, and a configuration in it. -/
theorem exists_config [Machine] {fs : FileSystem} {config : Config}
    (h : (do
      let root ← (fs.resolve (.ofString ".")).toOption
      let config ← (Config.load fs (root.child Config.fileName)).toOption
      if fs.isDirectory root then some (root, config) else none) =
        some (Path.absolute ["w"], config)) :
    fs.resolve (.ofString ".") = .ok (.absolute ["w"]) ∧ fs.isDirectory (.absolute ["w"]) = true ∧
      Config.load fs ((Path.absolute ["w"]).child Config.fileName) = .ok config := by
  simp only [Option.bind_eq_bind, Option.bind_eq_some_iff] at h
  obtain ⟨root, hroot, config', hload, h⟩ := h
  split at h
  case isFalse => cases h
  case isTrue hdirectory =>
    cases h
    exact ⟨eq_ok_of_toOption hroot, hdirectory, eq_ok_of_toOption hload⟩

end Machines

/-- The pattern of the configuration is no relative one. -/
def noPatternFiles : FileSystem := workspaceOf "build-directory: build\nsources: [/a]\n".toList []

/-- The build directory is the configuration. -/
def blockedFiles : FileSystem :=
  workspaceOf "build-directory: .gqlast.yaml\nsources: [a.graphql]\n".toList []

end CommandLine

end GraphQLDoc
