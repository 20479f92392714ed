import GraphQLDoc.Proofs.FileSystem.Tree
import GraphQLDoc.Proofs.Workspace.Failure

/-!
Sources whose artifacts would have names that are too long. The name of an artifact is longer than that
of its source, so that a source may be there for which there cannot be an artifact. Where the directory
of the artifact is there, the question whether it is newer than the source has no answer; where the
directory is missing, it is not newer.
-/
namespace GraphQLDoc

namespace FileSystem

variable {fs : FileSystem}

theorem IsSound.isDirectory_here (h : fs.IsSound) : fs.IsDirectory .here fs.workingDirectory := by
  obtain ⟨time, htime⟩ := h.working
  refine ⟨time, ?_⟩
  show walkFrom fs true (walkWithin fs true 39) fs.workingDirectory [] = _
  rw [walkFrom, htime]

end FileSystem

namespace Compile

open FileSystem

variable {fs gs : FileSystem} {root build s : Path} {k : String} {b : List String} {n : Nat}

/-- Two ways in which the turn of a source that cannot be read may end, one of them without an error
that is told. -/
theorem files_singleton_ne [Machine] {e e' : FileError} (hk : key fs root s = .ok k)
    (hk' : key gs root s = .ok k)
    (hfresh : isFresh fs s (artifact build k) = .error e)
    (hstale : isFresh gs s (artifact build k) = .ok false) (hread : gs.read s = .error e')
    (hnull : e' ≠ .nullCharacter) :
    (files [s] build root fs).1 ≠ (files [s] build root gs).1 := by
  have hfault : files [s] build root fs = (.error (.fault (.file e)), fs) :=
    filesInto_of_error hk rfl (by rw [file, hfresh]) []
  have hparse : parseFile gs s = .error (.cannotOpen s e') := by
    unfold parseFile readText
    rw [hread]
    cases e' <;> first | rfl | exact absurd rfl hnull
  have htold : files [s] build root gs =
      (.error (.source s ("Cannot open '" ++ s.text ++ "': " ++ e'.message)), gs) :=
    filesInto_of_error hk' rfl (by rw [file, hstale, rebuild, hparse]; rfl) []
  rw [hfault, htold]
  intro heq
  cases heq

/-- Directories in the working directory. -/
structure AreDirectoryNames (front : List String) : Prop where
  entry : ∀ name ∈ front, IsEntryName name
  plain : ∀ name ∈ front, Path.IsPlainPart name
  null : ∀ name ∈ front, '\x00' ∉ name.toList

/-- A source in such a directory whose name has some size. -/
def longSource (front : List String) (n : Nat) : Path := ⟨"", front ++ [nameOfSize n]⟩

/-- The name of its artifact. -/
def longArtifactName (n : Nat) : String := nameOfSize n ++ Artifact.suffix

variable {front : List String} (hfront : AreDirectoryNames front) (hn : n ≠ 0)

section Names

theorem utf8ByteSize_longArtifactName (n : Nat) : (longArtifactName n).utf8ByteSize = n + 13 := by
  rw [longArtifactName, String.utf8ByteSize_append, utf8ByteSize_nameOfSize]
  rfl

theorem longArtifactName_ne_dots (n : Nat) : longArtifactName n ≠ ".." := by
  have htwo : "..".utf8ByteSize = 2 := by decide
  intro heq
  have hsize := utf8ByteSize_longArtifactName n
  rw [heq] at hsize
  omega

theorem notMem_longArtifactName (n : Nat) : '\x00' ∉ (longArtifactName n).toList := by
  rw [longArtifactName, String.toList_append, List.mem_append, not_or]
  exact ⟨notMem_nameOfSize (by decide) n, by decide⟩

theorem stem_nameOfSize (n : Nat) : Path.stem (nameOfSize n) = nameOfSize n := by
  have hall : (List.replicate n 'x').takeWhile (· != '.') = List.replicate n 'x' := by
    rw [List.takeWhile_replicate]
    rfl
  unfold Path.stem
  dsimp only
  rw [toList_nameOfSize, List.reverse_replicate, hall, List.length_replicate]
  exact if_pos (.inr (Nat.le_succ n))

include hfront

theorem hasNull_longSource : (longSource front n).hasNull = false :=
  Path.hasNull_eq_false_iff.mpr (List.forall_mem_append.mpr
    ⟨hfront.null, List.forall_mem_singleton.mpr (notMem_nameOfSize (by decide) n)⟩)

include hn

theorem isPlain_longSource : Path.IsPlain (front ++ [nameOfSize n]) := by
  have hpart : Path.isPart (nameOfSize n) = true := by
    have hempty : nameOfSize n ≠ "" := fun h => hn (by rw [← utf8ByteSize_nameOfSize n, h]; rfl)
    have hdot : nameOfSize n ≠ "." := fun h =>
      notMem_nameOfSize (by decide : '.' ≠ 'x') n (h ▸ by decide)
    simp [Path.isPart, hempty, hdot]
  exact ⟨List.append_ne_nil_of_right_ne_nil _ (List.cons_ne_nil _ _), List.forall_mem_append.mpr
    ⟨hfront.plain, List.forall_mem_singleton.mpr
      ⟨hpart, notMem_nameOfSize (by decide) n, notMem_nameOfSize (by decide) n⟩⟩⟩

theorem artifact_longSource : artifact build (keyOfParts (front ++ [nameOfSize n])) =
    build.below (front ++ [longArtifactName n]) := by
  rw [artifact_eq_below (isPlain_longSource hfront hn), artifactNames, List.dropLast_concat,
    List.getLastD_concat, stem_nameOfSize, longArtifactName]

end Names

include hfront

/-- The source need not be there to have a key. -/
theorem key_longSource (hn : n ≠ 0) (hsound : fs.IsSound) (hlinks : fs.HasNoLinks) :
    fs.resolve (longSource front n) =
        .ok (.absolute (fs.workingDirectory ++ (front ++ [nameOfSize n]))) ∧
      key fs .here (longSource front n) = .ok (keyOfParts (front ++ [nameOfSize n])) := by
  have hplace : fs.LeadsTo (longSource front n)
      (fs.workingDirectory ++ (front ++ [nameOfSize n])) := by
    refine hlinks.leadsTo_iff.mpr ⟨hasNull_longSource hfront, ?_⟩
    rw [placeOf, goFrom_eq_append]
    · rfl
    · rw [longSource, List.mem_append, List.mem_singleton, not_or]
      exact ⟨fun hmem => (hfront.entry _ hmem).dots rfl, (nameOfSize_ne_dots n).symm⟩
  have hroot : fs.LeadsTo .here fs.workingDirectory := hlinks.leadsTo_iff.mpr ⟨rfl, rfl⟩
  have hresolve := hsound.resolve_of_leadsTo hplace
  exact ⟨hresolve, (LiesBelow.of_plain ⟨_, _, hresolve, hsound.resolve_of_leadsTo hroot,
    Path.behind?_append (.absolute fs.workingDirectory) _⟩ (isPlain_longSource hfront hn)).key_eq⟩

/-- What is read where there is such a source, and where there is none. -/
theorem read_longSource (hshort : n ≤ maxNameBytes) (hasked : refusal? (longSource front n) = none)
    (hsound : fs.IsSound)
    (hdirectory : fs.IsDirectoryAt (fs.workingDirectory ++ front)) :
    (fs.node? (fs.workingDirectory ++ (front ++ [nameOfSize n])) = none →
      fs.read (longSource front n) = .error .notFound) ∧
    ∀ bytes time, fs.node? (fs.workingDirectory ++ (front ++ [nameOfSize n])) =
      some (.file bytes time) → fs.read (longSource front n) = .ok bytes := by
  have hne : front ++ [nameOfSize n] ≠ [] := by simp
  have hbelow : Path.here.below (front ++ [nameOfSize n]) = longSource front n := rfl
  rw [← hbelow] at hasked
  constructor
  · intro hnone
    have hfind := find_below true hsound.isDirectory_here hne hasked fun _ =>
      walkFrom_free hsound hdirectory (isEntryName_nameOfSize.mpr hshort) hnone
    rw [FileSystem.read, stat, ← hbelow, hfind]
  · intro bytes time hfile
    have hfind := find_below true hsound.isDirectory_here hne hasked fun _ =>
      walkFrom_node hsound hfile (by simp)
    exact read_eq_ok.mpr ⟨_, time, hfind⟩

include hn

/-- Where the directory of the artifact is there, it is not known whether the artifact is newer. -/
theorem isFresh_longSource (hlong : maxNameBytes < n + 13)
    (hdirectory : fs.isDirectory (build.below front) = true) :
    isFresh fs s (artifact build (keyOfParts (front ++ [nameOfSize n]))) = .error .nameTooLong := by
  obtain ⟨q, hq⟩ := isDirectory_iff.mp hdirectory
  have hstat : fs.stat ((build.below front).child (longArtifactName n)) = .error .nameTooLong :=
    IsDirectory.stat_child hq (longArtifactName_ne_dots n) (notMem_longArtifactName n)
      ((utf8ByteSize_longArtifactName n).symm ▸ hlong)
  have hpath : (build.below front).child (longArtifactName n) =
      build.below (front ++ [longArtifactName n]) := by
    rw [Path.child, Path.below, Path.below, List.append_assoc]
  rw [artifact_longSource hfront hn, ← hpath, isFresh, ask_eq_error.mpr ⟨hstat, rfl⟩]

/-- Such a source is not compiled where the directory of its artifact is there. -/
theorem files_longSource [Machine] (hlong : maxNameBytes < n + 13) (hsound : fs.IsSound)
    (hlinks : fs.HasNoLinks) (hdirectory : fs.isDirectory (build.below front) = true) :
    files [longSource front n] build .here fs = (.error (.fault (.file .nameTooLong)), fs) :=
  filesInto_of_error (key_longSource hfront hn hsound hlinks).2 rfl
    (by rw [file, isFresh_longSource hfront hn hlong hdirectory]) []

omit hfront in
/-- Where already the first directory on the way to the artifact is missing, the artifact is not
newer. -/
theorem isFresh_longSource_of_none {first : String} {rest : List String}
    (hfront : AreDirectoryNames (first :: rest)) (hsound : fs.IsSound)
    (hasked : refusal? (build.below (first :: rest ++ [longArtifactName n])) = none)
    (hbuild : fs.IsDirectory build b) (hnone : fs.node? (b ++ [first]) = none) :
    isFresh fs s (artifact build (keyOfParts (first :: rest ++ [nameOfSize n]))) = .ok false := by
  have hlost (more : List String) : fs.node? (b ++ first :: more) = none := by
    by_cases hnil : more = []
    · rwa [hnil]
    · by_contra hsome
      obtain ⟨m, hm⟩ := Option.ne_none_iff_exists'.mp hsome
      rw [List.append_cons] at hm
      obtain ⟨time, htime⟩ := hsound.front hnil hm
      cases hnone.symm.trans htime
  have hclear (before : List String) (hbefore : before <+: first :: rest) :
      fs.node? (b ++ before) = none ∨ fs.IsDirectoryAt (b ++ before) := by
    cases before with
    | nil => exact .inr ((List.append_nil b).symm ▸ hbuild.isDirectoryAt)
    | cons name more =>
      obtain ⟨rfl, -⟩ := List.cons_prefix_cons.mp hbefore
      exact .inl (hlost more)
  have hmissing : ¬ fs.IsDirectoryAt (b ++ first :: rest) := by
    rintro ⟨time, htime⟩
    cases (hlost rest).symm.trans htime
  have hfind := find_below true hbuild (by simp) hasked fun _ =>
    walkFrom_lost hbuild.isDirectoryAt hfront.entry hclear hmissing
  have hstat : fs.stat (build.below (first :: rest ++ [longArtifactName n])) = .error .notFound := by
    rw [stat, hfind]
  rw [artifact_longSource hfront hn, isFresh, ask_eq (by rw [hstat]; decide), time?, hstat]

end Compile

end GraphQLDoc
