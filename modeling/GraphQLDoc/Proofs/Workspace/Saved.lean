import GraphQLDoc.Proofs.FileSystem.Below
import GraphQLDoc.Proofs.Json.Printable
import GraphQLDoc.Proofs.Workspace.Documents

/-!
Artifacts on a file system. A document that is saved stands at the end of its path, in directories
that are there or are made, and nothing else is changed but the times of directories. It is loaded
again as the document that it was.
-/
namespace GraphQLDoc

open FileSystem

/-- What a file with a document says. -/
def IsDocumentOf [Machine] (bytes : List UInt8) (d : Document) : Prop :=
  ∃ text, textOfFile bytes = .ok text ∧ parseDocument text = .ok d

namespace FileSystem

variable {fs gs made : FileSystem} {p : Path} {place : List String} {bytes : List UInt8}

theorem read_eq_ok : fs.read p = .ok bytes ↔
    ∃ place time, fs.find true p = .ok (.node place (.file bytes time)) := by
  unfold read stat
  constructor
  · intro h
    split at h
    · rename_i old time hstat
      split at hstat
      · rename_i q n hfind
        cases hstat
        cases h
        exact ⟨q, time, hfind⟩
      · exact nomatch hstat
      · exact nomatch hstat
    · exact nomatch h
    · exact nomatch h
  · rintro ⟨place, time, hfind⟩
    rw [hfind]

/-- When the node at a place was changed. -/
def Changed (n : FileNode) (time : Int) : Prop :=
  (∃ bytes, n = .file bytes time) ∨ n = .directory time

theorem time?_eq_some {time : Int} : fs.time? p = some time ↔
    ∃ place n, fs.find true p = .ok (.node place n) ∧ Changed n time := by
  unfold time? stat
  constructor
  · intro h
    cases hfind : fs.find true p with
    | error e =>
      rw [hfind] at h
      exact nomatch h
    | ok found =>
      rw [hfind] at h
      cases found with
      | missing parent name => exact nomatch h
      | node q n =>
        refine ⟨q, n, rfl, ?_⟩
        cases n with
        | file bytes t => exact .inl ⟨bytes, by rw [Option.some.inj h]⟩
        | directory t => exact .inr (by rw [Option.some.inj h])
        | link target => exact nomatch h
  · rintro ⟨q, n, hfind, ⟨bytes, rfl⟩ | rfl⟩ <;> rw [hfind]

/-- What saving a file comes to. -/
structure Saves (fs gs : FileSystem) (p : Path) (place : List String) (bytes : List UInt8) :
    Prop where
  now : gs.now = fs.now
  links : KeepsLinks fs gs
  sound : fs.IsSound → gs.IsSound
  leads : fs.LeadsTo p place
  found : gs.find true p = .ok (.node place (.file bytes fs.now))
  before : ∀ n, fs.node? place = some n → ∃ bytes time, n = .file bytes time
  node : ∀ q, q ≠ place → Made fs.now (fs.ComesBy p.parent q) (fs.node? q) (gs.node? q)

theorem exists_saves (hmakes : Makes fs made p.parent) (h : made.write p bytes = .ok gs) :
    ∃ place, Saves fs gs p place bytes := by
  obtain ⟨place, hfound, hwrites⟩ := find_write h
  have hlinks := hmakes.links.trans hwrites.links
  have hnow : made.now = fs.now := hmakes.adds.now
  refine ⟨place, hwrites.now.trans hnow, hlinks, fun hsound => hwrites.sound (hmakes.sound hsound),
    hlinks.leadsTo.mp (find_leadsTo hfound (.inl rfl)), hnow ▸ hfound, fun n hn => ?_, fun q hq => ?_⟩
  · -- a directory that was made would be in the way of the file
    have hmade := hmakes.adds.node place
    rw [hn] at hmade
    generalize hm : made.node? place = m at hmade
    cases hmade with
    | same => exact hwrites.before _ hm
    | touched =>
      obtain ⟨_, _, hfile⟩ := hwrites.before _ hm
      exact nomatch hfile
  · refine (hmakes.adds.node q).trans ?_
    rw [← hnow]
    exact (hwrites.node q hq).mono False.elim

namespace Saves

variable (h : Saves fs gs p place bytes)
include h

theorem written : gs.node? place = some (.file bytes fs.now) := find_isIn h.found

theorem grows : Grows fs gs where
  workingDirectory := h.links.workingDirectory
  node q n hn := by
    by_cases hq : q = place
    · subst hq
      obtain ⟨old, time, rfl⟩ := h.before n hn
      rw [h.written]
      exact .file
    · have hmade := h.node q hq
      rw [hn] at hmade
      generalize gs.node? q = n' at hmade
      cases hmade with
      | same => exact .rfl _
      | touched => exact .directory

/-- A file that can be saved has no name on its path that is too long. -/
theorem hasShortNames (hsound : fs.IsSound) : fs.HasShortNames p :=
  h.links.hasShortNames.mp ((h.sound hsound).hasShortNames h.found)

/-- A file that is not at the place is as it was. -/
theorem file_iff {q : List String} (hq : q ≠ place) {old : List UInt8} {time : Int} :
    gs.node? q = some (.file old time) ↔ fs.node? q = some (.file old time) := by
  have hmade := h.node q hq
  generalize fs.node? q = n, gs.node? q = n' at hmade
  cases hmade with
  | same => rfl
  | touched => simp
  | made => simp

end Saves

end FileSystem

namespace Artifact

variable [Machine] {fs gs : FileSystem} {p : Path} {place : List String} {bytes : List UInt8}
  {d : Document}

theorem exists_saves (h : save d p fs = (.ok (), gs)) :
    d.nesting ≤ maxNesting ∧ ∃ place, Saves fs gs p place (bytesOf d) := by
  have hmakes := makes_ensureWithin Machine.calls p.parent fs
  unfold save ensureDirectories at h
  split at h
  · exact nomatch h
  · rename_i made hmade
    rw [hmade] at hmakes
    split at h
    · exact nomatch h
    · rename_i text htext
      obtain ⟨hnesting, rfl⟩ := serialize_eq_ok_iff.mp htext
      split at h
      · rename_i written hwritten
        cases h
        exact ⟨hnesting, FileSystem.exists_saves hmakes hwritten⟩
      · exact nomatch h

/-- What is made where a document is not saved are directories on the way. -/
theorem makes_of_save {f : Fault} (h : save d p fs = (.error f, gs)) : Makes fs gs p.parent := by
  have hmakes := makes_ensureWithin Machine.calls p.parent fs
  unfold save ensureDirectories at h
  split at h
  · rename_i hensure
    cases h
    rwa [hensure] at hmakes
  · rename_i made hmade
    rw [hmade] at hmakes
    split at h
    · cases h
      exact hmakes
    · split at h
      · exact nomatch h
      · cases h
        exact hmakes

/-- An artifact can be saved below a directory where no file is in the way of its directories, and
nothing but a file in its own place. -/
theorem exists_save {b front : List String} {last : String} (h : fs.IsSound)
    (hp : fs.IsDirectory p b) (hnames : ∀ name ∈ front ++ [last], IsEntryName name)
    (hasked : refusal? (p.below (front ++ [last])) = none)
    (hclear : ∀ before, before <+: front →
      fs.node? (b ++ before) = none ∨ fs.IsDirectoryAt (b ++ before))
    (hfree : ∀ n, fs.node? (b ++ (front ++ [last])) = some n → ∃ bytes time, n = .file bytes time)
    (hcomes : ¬ fs.ComesBy (p.below front) (b ++ (front ++ [last])))
    (hcalls : ∃ before rest, front = before ++ rest ∧ fs.IsDirectoryAt (b ++ before) ∧
      rest.length ≤ Machine.calls + 1) (hnesting : d.nesting ≤ maxNesting) :
    ∃ gs, save d (p.below (front ++ [last])) fs = (.ok (), gs) := by
  obtain ⟨hfront, hlast⟩ := List.forall_mem_append.mp hnames
  obtain ⟨made, hmade, hdirectory⟩ :=
    exists_ensureWithin h hp hfront (refusal?_of_below hasked) hclear hcalls
  have hmakes := makes_ensureWithin Machine.calls (p.below front) fs
  rw [hmade] at hmakes
  have hmadeFree (n : FileNode) (hn : made.node? (b ++ (front ++ [last])) = some n) :
      ∃ bytes time, n = .file bytes time := by
    have hnode := hmakes.adds.node (b ++ (front ++ [last]))
    rw [hn] at hnode
    generalize hm : fs.node? (b ++ (front ++ [last])) = m at hnode
    cases hnode with
    | same => exact hfree _ hm
    | touched =>
      obtain ⟨_, _, hfile⟩ := hfree _ hm
      cases hfile
    | made hq => exact absurd hq hcomes
  obtain ⟨written, hwritten⟩ := exists_write (hmakes.sound h) (hp.grows hmakes.adds.grows)
    (hlast last (List.mem_singleton_self last)) hasked hdirectory hmadeFree (bytesOf d)
  refine ⟨written, ?_⟩
  unfold bytesOf at hwritten
  unfold save ensureDirectories
  simp only [Path.parent_below_concat, hmade, serialize_eq hnesting, hwritten]

/-- Where an artifact was saved, no more of its directories were missing than there were calls. -/
theorem exists_front_of_save {root : Path} {b front : List String} (h : fs.IsSound)
    (hb : fs.LeadsTo root b) (hdots : ∀ name ∈ front, name ≠ "..") (hlinks : fs.AreLinkFree b front)
    (hparent : p.parent = root.below front) (hsave : save d p fs = (.ok (), gs)) :
    ∃ before rest, front = before ++ rest ∧ (before = [] ∨ fs.IsDirectoryAt (b ++ before)) ∧
      rest.length ≤ Machine.calls + 1 := by
  unfold save ensureDirectories at hsave
  split at hsave
  · exact nomatch hsave
  · rename_i made hmade
    rw [hparent] at hmade
    exact exists_front_of_ensureWithin h hb hdots hlinks hmade

/-- What is wrong with an artifact that is not passed over is how deep its containers are nested. -/
theorem exists_of_load_fault {e : ArtifactFileError} (h : load fs p = .error e)
    (hfault : e.fault? ≠ none) : ∃ place bytes time text container,
      fs.find true p = .ok (.node place (.file bytes time)) ∧ textOfFile bytes = .ok text ∧
        deserialize text = .error (.json (.tooDeep container)) := by
  unfold load readText at h
  cases hread : fs.read p with
  | error e' =>
    rw [hread] at h
    cases h
    exact absurd rfl hfault
  | ok bytes =>
    obtain ⟨place, time, hfind⟩ := read_eq_ok.mp hread
    rw [hread] at h
    cases htext : textOfFile bytes with
    | error f =>
      simp only [htext, Except.mapError] at h
      cases h
      exact absurd rfl hfault
    | ok text =>
      simp only [htext, Except.mapError] at h
      cases hd : deserialize text with
      | ok d => rw [hd] at h; cases h
      | error problem =>
        rw [hd] at h
        cases h
        unfold ArtifactFileError.fault? at hfault
        split at hfault
        · rename_i container hproblem
          cases hproblem
          exact ⟨place, bytes, time, text, container, hfind, htext, hd⟩
        · exact absurd rfl hfault

/-- A file that cannot be read or holds no artifact is not loaded. -/
theorem exists_of_load (h : load fs p = .ok d) : ∃ place bytes time text,
    fs.find true p = .ok (.node place (.file bytes time)) ∧ textOfFile bytes = .ok text ∧
      deserialize text = .ok d := by
  unfold load readText at h
  cases hread : fs.read p with
  | error e =>
    rw [hread] at h
    cases h
  | ok bytes =>
    obtain ⟨place, time, hfind⟩ := read_eq_ok.mp hread
    rw [hread] at h
    cases htext : textOfFile bytes with
    | error f =>
      simp only [htext, Except.mapError] at h
      cases h
    | ok text =>
      simp only [htext, Except.mapError] at h
      cases hd : deserialize text with
      | error e =>
        rw [hd] at h
        cases h
      | ok d' =>
        rw [hd] at h
        exact ⟨place, bytes, time, text, hfind, htext, hd.trans (congrArg _ (Except.ok.inj h))⟩

theorem load_eq_of_find {time : Int} {text : List Char}
    (hfind : fs.find true p = .ok (.node place (.file bytes time)))
    (htext : textOfFile bytes = .ok text) :
    load fs p = (deserialize text).mapError .content := by
  unfold load readText
  rw [read_eq_ok.mpr ⟨place, time, hfind⟩]
  simp only [htext, Except.mapError]

theorem load_of_find {time : Int} {text : List Char}
    (hfind : fs.find true p = .ok (.node place (.file bytes time)))
    (htext : textOfFile bytes = .ok text) (hd : deserialize text = .ok d) : load fs p = .ok d := by
  rw [load_eq_of_find hfind htext, hd]
  rfl

/-- What is saved is loaded. -/
theorem load_bytesOf {time : Int} (hd : d.IsPlain) (hnesting : d.nesting ≤ maxNesting)
    (hcalls : maxDepth ≤ Machine.calls)
    (h : fs.find true p = .ok (.node place (.file (bytesOf d) time))) : load fs p = .ok d := by
  obtain ⟨htext, hread⟩ := read_bytesOf hd.valid hd.texts hnesting hcalls
  exact load_of_find h htext hread

end Artifact

variable [Machine]

theorem isPlain_of_isDocumentOf {bytes : List UInt8} {d : Document} (h : IsDocumentOf bytes d) :
    d.IsPlain :=
  h.elim fun _ h => isPlain_of_parseDocument h.2

theorem parseFile_eq_ok_iff {fs : FileSystem} {p : Path} {d : Document} :
    parseFile fs p = .ok d ↔ ∃ place bytes time,
      fs.find true p = .ok (.node place (.file bytes time)) ∧ IsDocumentOf bytes d := by
  unfold parseFile readText
  constructor
  · intro h
    cases hread : fs.read p with
    | error e =>
      rw [hread] at h
      cases e <;> cases h
    | ok bytes =>
      obtain ⟨place, time, hfind⟩ := read_eq_ok.mp hread
      rw [hread] at h
      cases htext : textOfFile bytes with
      | error f =>
        simp only [htext, Except.mapError] at h
        cases h
      | ok text =>
        simp only [htext, Except.mapError] at h
        cases hd : parseDocument text with
        | error e =>
          rw [hd] at h
          cases h
        | ok d' =>
          rw [hd] at h
          exact ⟨place, bytes, time, hfind, text, htext, hd.trans (congrArg _ (Except.ok.inj h))⟩
  · rintro ⟨place, bytes, time, hfind, text, htext, hd⟩
    rw [read_eq_ok.mpr ⟨place, time, hfind⟩]
    simp only [htext, Except.mapError, hd]

namespace Compile

variable {fs gs : FileSystem} {source artifact : Path}

/-- What compiling one source does to the file system. -/
inductive Effect (fs : FileSystem) (source artifact : Path) : FileSystem → Prop where
  | unchanged : Effect fs source artifact fs
  /-- Directories were made, but the artifact could not be written. -/
  | made {gs : FileSystem} (hmakes : Makes fs gs artifact.parent) : Effect fs source artifact gs
  | saved {gs : FileSystem} {place : List String} {d : Document}
      (hparse : parseFile fs source = .ok d) (hnesting : d.nesting ≤ maxNesting)
      (hsaves : Saves fs gs artifact place (Artifact.bytesOf d)) : Effect fs source artifact gs

namespace Effect

variable (h : Effect fs source artifact gs)
include h

theorem now : gs.now = fs.now := by
  cases h with
  | unchanged => rfl
  | made hmakes => exact hmakes.adds.now
  | saved _ _ hsaves => exact hsaves.now

theorem links : KeepsLinks fs gs := by
  cases h with
  | unchanged => exact .refl fs
  | made hmakes => exact hmakes.links
  | saved _ _ hsaves => exact hsaves.links

theorem sound (hfs : fs.IsSound) : gs.IsSound := by
  cases h with
  | unchanged => exact hfs
  | made hmakes => exact hmakes.sound hfs
  | saved _ _ hsaves => exact hsaves.sound hfs

end Effect

theorem effect_rebuild (source artifact : Path) (fs : FileSystem) :
    Effect fs source artifact (rebuild source artifact fs).2 := by
  unfold rebuild
  split
  · split <;> exact .unchanged
  · rename_i d hparse
    split
    · rename_i written hsave
      obtain ⟨hnesting, place, hsaves⟩ := Artifact.exists_saves hsave
      exact .saved hparse hnesting hsaves
    · rename_i f made hsave
      exact .made (Artifact.makes_of_save hsave)

theorem effect_file (source artifact : Path) (fs : FileSystem) :
    Effect fs source artifact (file source artifact fs).2 := by
  unfold file
  split
  · exact .unchanged
  · exact effect_rebuild source artifact fs
  · split
    · exact .unchanged
    · split
      · exact .unchanged
      · exact effect_rebuild source artifact fs

/-- What the compilation of each source keeps is kept by compiling all of them, also where that
fails. -/
theorem filesInto_keeps {P : FileSystem → Prop} {build root : Path} {list : List Path}
    (hstep : ∀ s ∈ list, ∀ k fs gs, P fs → key fs root s = .ok k →
      Effect fs s (Compile.artifact build k) gs → P gs)
    {done : List (String × Document)} (h : P fs) : P (filesInto build root list done fs).2 := by
  induction list generalizing done fs with
  | nil => exact h
  | cons s rest ih =>
    obtain ⟨hs, hrest⟩ := List.forall_mem_cons.mp hstep
    rw [filesInto]
    split
    · exact h
    · rename_i k hk
      split
      · exact ih hrest h
      · have hfile := hs k fs _ h hk (effect_file s (Compile.artifact build k) fs)
        split
        · rename_i hresult
          rwa [hresult] at hfile
        · rename_i hresult
          rw [hresult] at hfile
          exact ih hrest hfile

theorem now_filesInto (build root : Path) (list : List Path) (done : List (String × Document))
    (fs : FileSystem) : (filesInto build root list done fs).2.now = fs.now :=
  filesInto_keeps (P := fun gs => gs.now = fs.now)
    (fun _ _ _ _ _ h _ heffect => heffect.now.trans h) rfl

theorem keepsLinks_filesInto (build root : Path) (list : List Path)
    (done : List (String × Document)) (fs : FileSystem) :
    KeepsLinks fs (filesInto build root list done fs).2 :=
  filesInto_keeps (fun _ _ _ _ _ h _ heffect => h.trans heffect.links) (.refl fs)

omit [Machine] in
theorem isFresh_iff : isFresh fs source artifact = .ok true ↔
    ∃ made changed, fs.time? artifact = some made ∧ fs.time? source = some changed ∧
      changed < made := by
  constructor
  · intro h
    unfold isFresh at h
    split at h
    · cases h
    · cases h
    · rename_i made hmade
      split at h
      · cases h
      · cases h
      · rename_i changed hchanged
        exact ⟨made, changed, (ask_eq_ok.mp hmade).2.symm, (ask_eq_ok.mp hchanged).2.symm,
          by simpa using h⟩
  · rintro ⟨made, changed, hmade, hchanged, hlt⟩
    have hask {p : Path} {time : Int} (htime : fs.time? p = some time) :
        fs.ask p (fs.time? p) = .ok (some time) := by
      obtain ⟨q, n, hfind, -⟩ := time?_eq_some.mp htime
      rw [ask_of_find hfind, htime]
    simpa [isFresh, hask hmade, hask hchanged] using hlt

omit [Machine] in
theorem stat_ne_of_isFresh {b : Bool} (h : isFresh fs source artifact = .ok b) :
    fs.stat artifact ≠ .error .nameTooLong := by
  intro hlong
  rw [isFresh, ask_eq_error.mpr ⟨hlong, rfl⟩] at h
  cases h

omit [Machine] in
/-- Whether an artifact is newer is known where no name is too long. -/
theorem exists_isFresh (hartifact : fs.stat artifact ≠ .error .nameTooLong)
    (hsource : fs.stat source ≠ .error .nameTooLong) : ∃ b, isFresh fs source artifact = .ok b := by
  unfold isFresh
  rw [ask_eq hartifact, ask_eq hsource]
  split
  · cases ‹Except.ok _ = Except.error _›
  · exact ⟨_, rfl⟩
  · split
    · cases ‹Except.ok _ = Except.error _›
    · exact ⟨_, rfl⟩
    · exact ⟨_, rfl⟩

end Compile

end GraphQLDoc
