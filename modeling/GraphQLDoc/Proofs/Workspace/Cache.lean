import GraphQLDoc.Proofs.Workspace.LongNames
import GraphQLDoc.Proofs.Workspace.Transparent

/-!
The cache of artifacts over time. Sources are written, deleted and compiled in any order, by a clock
that never goes back; what a compilation gives is what it would give with an empty build directory.
-/
namespace GraphQLDoc

namespace FileSystem

variable {fs : FileSystem}

/-- The same files at a time. -/
def atTime (time : Int) (fs : FileSystem) : FileSystem := { fs with now := time }

theorem node?_atTime (fs : FileSystem) (time : Int) (q : List String) :
    (fs.atTime time).node? q = if q = [] then some (.directory time) else fs.node? q := by
  unfold node? atTime
  split <;> rfl

theorem made_atTime (fs : FileSystem) (time : Int) (q : List String) :
    Made time False (fs.node? q) ((fs.atTime time).node? q) := by
  rw [node?_atTime]
  split
  · rename_i hq
    rw [hq, node?_nil]
    exact .touched _
  · exact .same _

theorem keepsLinks_atTime (fs : FileSystem) (time : Int) : KeepsLinks fs (fs.atTime time) where
  workingDirectory := rfl
  link q target := by
    rw [node?_atTime]
    split
    · rename_i hq
      simp [hq, node?_nil]
    · rfl

theorem IsSound.atTime (h : fs.IsSound) (time : Int) : (fs.atTime time).IsSound := by
  refine h.of_nodes rfl (fun q hq => ?_) fun q name n hn => .inl ⟨n, ?_⟩
  · unfold IsDirectoryAt
    rw [node?_atTime]
    split
    · exact ⟨time, rfl⟩
    · exact hq
  · rwa [node?_atTime, if_neg (by simp)] at hn

end FileSystem

namespace Compile

open FileSystem

variable {start fs gs : FileSystem} {root build s : Path} {sources : Set Path}
  {k : String} {b q r place : List String} {bytes : List UInt8}

/-! An empty build directory. -/

open Classical in
/-- The same with an empty build directory: nothing is left in it but the directories that its own
path leads through. -/
noncomputable def emptied (build : Path) (fs : FileSystem) : FileSystem :=
  match fs.find true build with
  | .ok (.node b (.directory _)) =>
    { fs with nodes := fs.nodes.filter fun e => ¬ IsBelow b e.1 ∨ IsKept fs build e.1 }
  | _ => fs

theorem node?_emptied (hb : fs.IsDirectory build b) (q : List String)
    [Decidable (¬ IsBelow b q ∨ IsKept fs build q)] : (emptied build fs).node? q =
      if ¬ IsBelow b q ∨ IsKept fs build q then fs.node? q else none := by
  classical
  obtain ⟨time, hfind⟩ := hb
  unfold emptied
  rw [hfind]
  by_cases hq : q = []
  · have hbelow : ¬ IsBelow b q := by
      rintro ⟨names, hne, heq⟩
      rw [hq] at heq
      exact hne (List.append_eq_nil_iff.mp heq.symm).2
    rw [if_pos (.inl hbelow), hq, node?_nil, node?_nil]
  · unfold node?
    rw [if_neg hq, if_neg hq, get?_filter (fun k => decide (¬ IsBelow b k ∨ IsKept fs build k))]
    simp only [decide_eq_true_eq]

/-- Where the path of the build directory does not lead through its inside, nothing is left there. -/
theorem emptied_eq_filter (hb : fs.IsDirectory build b)
    (hkept : ∀ q, IsKept fs build q → ¬ IsBelow b q) :
    emptied build fs = { fs with nodes := fs.nodes.filter fun e => ¬ IsBelow b e.1 } := by
  obtain ⟨time, hfind⟩ := hb
  unfold emptied
  rw [hfind]
  simp only [or_iff_left_of_imp (hkept _)]

theorem IsKept.of_keepsLinks (h : KeepsLinks start fs) : IsKept fs build q ↔ IsKept start build q :=
  exists_congr fun _ => and_congr_left fun _ => h.comesBy

section Machines

variable [Machine]

/-- What is up to date and what is emptied are beside each other. -/
theorem IsTidy.beside_emptied (hset : IsSetting start root build sources)
    (h : IsTidy start root build sources fs) (hb : fs.IsDirectory build b) :
    Beside start root build sources b fs (emptied build fs) := by
  classical
  have hbuild := h.leadsTo hb
  have hnode := node?_emptied hb
  have hkept (q : List String) (hq : ¬ IsBelow b q ∨ IsKept start build q) :
      (emptied build fs).node? q = fs.node? q := by
    rw [hnode, if_pos (hq.imp_right (IsKept.of_keepsLinks h.links).mpr)]
  have hsome (q : List String) (n : FileNode) (hn : (emptied build fs).node? q = some n) :
      fs.node? q = some n ∧ (¬ IsBelow b q ∨ IsKept start build q) := by
    rw [hnode] at hn
    split at hn
    · rename_i hq
      exact ⟨hn, hq.imp_right (IsKept.of_keepsLinks h.links).mp⟩
    · exact nomatch hn
  have hworking : (emptied build fs).workingDirectory = fs.workingDirectory := by
    unfold emptied
    split <;> rfl
  have hlinks : KeepsLinks fs (emptied build fs) := by
    refine ⟨hworking, fun q target => ⟨fun hq => (hsome q _ hq).1, fun hq => ?_⟩⟩
    rw [hkept q (.inl fun hbelow => ?_), hq]
    have hstart := (h.links.link q target).mp hq
    exact hset.noLinks hbuild q hbelow ⟨target, hstart⟩
  have hdirectory (q : List String) (hq : fs.IsDirectoryAt q)
      (hq' : ¬ IsBelow b q ∨ IsKept start build q) : (emptied build fs).IsDirectoryAt q := by
    unfold IsDirectoryAt
    rwa [hkept q hq']
  have hfront (q rest : List String) (hq : ¬ IsBelow b (q ++ rest) ∨ IsKept start build (q ++ rest)) :
      ¬ IsBelow b q ∨ IsKept start build q := by
    rcases hq with hq | ⟨v, hv, hprefix⟩
    · refine .inl fun ⟨names, hne, heq⟩ => hq ⟨names ++ rest, by simp [hne], ?_⟩
      rw [heq, List.append_assoc]
    · exact .inr ⟨v, hv, (List.prefix_append _ _).trans hprefix⟩
  refine ⟨h, ⟨h.links.trans hlinks, ⟨?_, ?_, ?_⟩, ?_⟩, hb, ?_, fun q hq => ?_⟩
  · intro q name n hn
    obtain ⟨hn, hq⟩ := hsome _ _ hn
    exact hdirectory q (h.sound.parent _ _ _ hn) (hfront q [name] hq)
  · exact fun q name n hn => h.sound.name q name n (hsome _ _ hn).1
  · -- at the start the build directory is empty, so that the program does not run in it
    rw [hworking]
    refine hdirectory _ h.sound.working (.inl fun hbelow => ?_)
    rw [h.links.workingDirectory] at hbelow
    obtain ⟨time, htime⟩ := hset.sound.working
    rw [hset.empty b _ hbuild hbelow] at htime
    exact nomatch htime
  · intro b' q n hb' hbelow hn
    exact h.node b' q n hb' hbelow (hsome q n hn).1
  · obtain ⟨time, hfind⟩ := hb
    have hsame : SameEnd (fs.find true build) ((emptied build fs).find true build) :=
      find_sameEnd hworking fun q hq => by
        rw [hkept q (.inr ⟨q, h.links.comesBy.mp hq, List.prefix_refl _⟩)]
        exact .rfl _
    have hplace := @find_isIn (emptied build fs) true build
    rw [hfind] at hsame
    unfold IsDirectory
    generalize (emptied build fs).find true build = found at hsame hplace
    cases hsame with
    | node place n n' =>
      have hn : (emptied build fs).node? b = some n' := hplace rfl
      rw [hkept b (.inl (not_isBelow_self b)), find_isIn hfind] at hn
      obtain rfl := Option.some.inj hn
      exact ⟨time, rfl⟩
  · rw [hkept q hq]
    exact .same _

/-! Steps. -/

/-- What happens to sources. -/
inductive Step where
  | write (source : Path) (bytes : List UInt8)
  | delete (source : Path)
  | compile (list : List Path)

namespace Step

/-- The sources that a step is about. -/
def paths : Step → List Path
  | write s _ => [s]
  | delete s => [s]
  | compile list => list

/-- What a step leaves. A file that cannot be written is left as it is, and deleting removes the file
that a path leads to. -/
def apply (build root : Path) (fs : FileSystem) : Step → FileSystem
  | write s bytes =>
    match fs.write s bytes with
    | .ok gs => gs
    | .error _ => fs
  | delete s =>
    match fs.find true s with
    | .ok (.node place (.file _ _)) => fs.removeNode place
    | _ => fs
  | compile list => (files list build root fs).2

end Step

theorem Step.now_apply (step : Step) (build root : Path) (fs : FileSystem) :
    (step.apply build root fs).now = fs.now := by
  cases step with
  | write s bytes =>
    rw [apply]
    split
    · rename_i hwritten
      obtain ⟨_, -, hwrites⟩ := writes_write hwritten
      exact hwrites.now
    · rfl
  | delete s =>
    rw [apply]
    split
    · rename_i hfind
      exact (edits_removeNode (find_isIn hfind)).now
    · rfl
  | compile list => exact now_filesInto build root list [] fs

/-- What becomes of a file system when sources are written, deleted and compiled one after another. -/
inductive History (start : FileSystem) (root build : Path) (sources : Set Path) :
    FileSystem → Prop where
  | start : History start root build sources start
  | step {fs : FileSystem} (h : History start root build sources fs) {time : Int}
      (htime : fs.now ≤ time) {step : Step} (hstep : ∀ s ∈ step.paths, s ∈ sources) :
      History start root build sources (step.apply build root (fs.atTime time))

section Setting

variable (h : IsSetting start root build sources)
include h

theorem IsSetting.isCurrent : IsCurrent start root build sources start where
  links := .refl start
  sound := h.sound
  node b q n hb hq hn := by
    rw [h.empty b q hb hq] at hn
    exact nomatch hn
  upToDate s k r place hk _ hplace bytes time hfile := by
    obtain ⟨b, names, hb, hne, -, -, -, rfl⟩ := h.isApart.artifact_below ⟨⟨s, hk⟩, hplace⟩
    rw [h.empty b _ hb ⟨names, hne, rfl⟩] at hfile
    exact nomatch hfile

omit h in
theorem IsCurrent.atTime (hfs : IsCurrent start root build sources fs) {time : Int}
    (htime : fs.now ≤ time) : IsCurrent start root build sources (fs.atTime time) where
  toIsTidy := hfs.toIsTidy.of_made (keepsLinks_atTime fs time) (hfs.sound.atTime time) time
    fun _ q _ _ => .inl ((made_atTime fs time q).mono False.elim)
  upToDate s k r place hk hr hplace :=
    (hfs.upToDate s k r place hk hr hplace).of_made htime (made_atTime fs time r)
      (made_atTime fs time place)

/-- A source that is written is newer than any artifact, and one that is gone has no time. -/
theorem IsCurrent.edits (hfs : IsCurrent start root build sources fs) (hs : s ∈ sources)
    (hr : start.LeadsTo s r) (hedits : Edits fs gs r) : IsCurrent start root build sources gs where
  toIsTidy := hfs.toIsTidy.of_made hedits.links (hedits.sound hfs.sound) fs.now fun b q hb hq => by
    refine .inl ((hedits.node q ?_).mono False.elim)
    rintro rfl
    exact h.isApart.outside s hs b _ hb hr hq
  upToDate t l r' place hl hr' hplace := by
    have hne : place ≠ r := (h.isApart.source_ne hs hr ⟨⟨t, hl⟩, hplace⟩).symm
    have hcurrent := hfs.upToDate t l r' place hl hr' hplace
    have hnow : fs.now ≤ gs.now := le_of_eq hedits.now.symm
    have hmade (q : List String) (hq : q ≠ r) : Made gs.now False (fs.node? q) (gs.node? q) :=
      hedits.now ▸ hedits.node q hq
    by_cases hrr : r' = r
    · subst hrr
      intro bytes time hfile
      have hold : fs.node? place = some (.file bytes time) := by
        have hplaceMade := hmade place hne
        rw [hfile] at hplaceMade
        generalize fs.node? place = m at hplaceMade
        cases hplaceMade
        rfl
      have htime := (hcurrent bytes time hold).1
      refine ⟨htime.trans hnow, fun n changed hn hchanged hlt => ?_⟩
      obtain ⟨bytes', rfl⟩ := hedits.edited n hn
      rcases hchanged with ⟨_, heq⟩ | heq
      · obtain ⟨-, rfl⟩ := FileNode.file.inj heq
        exact absurd htime (Int.not_le.mpr hlt)
      · exact nomatch heq
    · exact hcurrent.of_made hnow (hmade r' hrr) (hmade place hne)

theorem IsCurrent.apply (hfs : IsCurrent start root build sources fs) {step : Step}
    (hstep : ∀ s ∈ step.paths, s ∈ sources) :
    IsCurrent start root build sources (step.apply build root fs) := by
  cases step with
  | write s bytes =>
    rw [Step.apply]
    split
    · rename_i gs hgs
      obtain ⟨r, hr, hwrites⟩ := writes_write hgs
      exact hfs.edits h (hstep s (List.mem_singleton_self s)) (hfs.links.leadsTo.mp hr)
        hwrites.edits
    · exact hfs
  | delete s =>
    rw [Step.apply]
    split
    · rename_i r bytes time hfind
      exact hfs.edits h (hstep s (List.mem_singleton_self s))
        (hfs.links.leadsTo.mp (find_leadsTo hfind (.inl rfl))) (edits_removeNode (find_isIn hfind))
    · exact hfs
  | compile list => exact hfs.filesInto h hstep

theorem IsSetting.isCurrent_of_history (hhistory : History start root build sources fs) :
    IsCurrent start root build sources fs := by
  induction hhistory with
  | start => exact h.isCurrent
  | step _ htime hstep ih => exact (ih.atTime htime).apply h hstep

end Setting

end Machines

/-- A workspace `w` with an empty build directory. -/
def emptyFiles : FileSystem where
  nodes := [(["w"], .directory 0), (["w", "build"], .directory 0)]
  workingDirectory := ["w"]
  now := 0

/-- The sources `a` and `b`. -/
def emptyFilesSources : Set Path := {⟨"", ["a.graphql"]⟩, ⟨"", ["b.graphql"]⟩}

theorem emptyFiles_hasNoLinks : emptyFiles.HasNoLinks :=
  hasNoLinks_of_nodes (by simp [emptyFiles])

/-- What stands in the build directory is further down than what stands in the workspace. -/
theorem emptyFiles_below {b q : List String} (hb : emptyFiles.LeadsTo (⟨"", ["build"]⟩) b)
    (hq : IsBelow b q) : 2 < q.length := by
  obtain ⟨names, hne, rfl⟩ := hq
  have hbuild : b = ["w", "build"] := by
    rw [(emptyFiles_hasNoLinks.leadsTo_iff.mp hb).2]
    decide
  have hlength := List.length_pos_iff.mpr hne
  rw [hbuild, List.length_append, List.length_cons, List.length_singleton]
  omega

/-- One name leads no further than to what stands in the workspace. -/
theorem emptyFiles_comesBy {p : Path} (hlength : p.parts.length ≤ 1) (hdots : ".." ∉ p.parts)
    (hrelative : p.isAbsolute = false) {q : List String} (hq : emptyFiles.ComesBy p q) :
    q.length ≤ 2 := by
  obtain ⟨before, hbefore, rfl⟩ := emptyFiles_hasNoLinks.comesBy_iff.mp hq
  rw [goFrom_eq_append fun h => hdots (hbefore.subset h), start, startFrom, hrelative]
  have hle := hbefore.length_le
  simp [emptyFiles]
  omega

theorem emptyFiles_key {s : Path} {k : String} (hs : s ∈ emptyFilesSources)
    (hk : key emptyFiles .here s = .ok k) :
    s = ⟨"", ["a.graphql"]⟩ ∧ k = "a" ∨ s = ⟨"", ["b.graphql"]⟩ ∧ k = "b" := by
  have hka : (key emptyFiles .here (⟨"", ["a.graphql"]⟩)).toOption = some "a" := by decide
  have hkb : (key emptyFiles .here (⟨"", ["b.graphql"]⟩)).toOption = some "b" := by decide
  rcases hs with rfl | rfl
  · rw [hk] at hka
    exact .inl ⟨rfl, Option.some.inj hka⟩
  · rw [hk] at hkb
    exact .inr ⟨rfl, Option.some.inj hkb⟩

theorem emptyFiles_isSetting :
    @IsSetting .usual emptyFiles .here (⟨"", ["build"]⟩) emptyFilesSources := by
  let := Machine.usual
  have hlinks := emptyFiles_hasNoLinks
  have hmem (s : Path) (hs : s ∈ emptyFilesSources) :
      s = ⟨"", ["a.graphql"]⟩ ∨ s = ⟨"", ["b.graphql"]⟩ := hs
  constructor
  case sound => exact isSound_of_nodes (by decide) (by decide)
  case rooted => exact ⟨["w"], hlinks.leadsTo_iff.mpr ⟨rfl, rfl⟩⟩
  case source =>
    intro s hs
    refine ⟨_, hlinks.leadsTo_iff.mpr ⟨?_, rfl⟩⟩
    rcases hmem s hs with rfl | rfl <;> decide
  case plain =>
    intro s hs r parts hr hleads
    obtain rfl : r = ["w"] := (hlinks.leadsTo_iff.mp hr).2
    have hplace := (hlinks.leadsTo_iff.mp hleads).2
    have hplaces : emptyFiles.placeOf (⟨"", ["a.graphql"]⟩) = ["w"] ++ ["a.graphql"] ∧
        emptyFiles.placeOf (⟨"", ["b.graphql"]⟩) = ["w"] ++ ["b.graphql"] := by decide
    rcases hmem s hs with rfl | rfl
    · rw [hplaces.1] at hplace
      rw [List.append_cancel_left hplace]
      decide
    · rw [hplaces.2] at hplace
      rw [List.append_cancel_left hplace]
      decide
  case outside =>
    intro s hs b q hb hq hcomes
    have hlong := emptyFiles_below hb hq
    have hle : q.length ≤ 2 := by
      rcases hmem s hs with rfl | rfl
      all_goals exact emptyFiles_comesBy (by decide) (by decide) (by decide) hcomes
    omega
  case keys =>
    intro s hs t ht k hk hk' r hr
    have hne : "a" ≠ "b" := by decide
    rcases emptyFiles_key hs hk with ⟨hs, hka⟩ | ⟨hs, hka⟩ <;>
      rcases emptyFiles_key ht hk' with ⟨ht, hkb⟩ | ⟨ht, hkb⟩
    · rwa [ht, ← hs]
    · exact absurd (hka.symm.trans hkb) hne
    · exact absurd (hkb.symm.trans hka) hne
    · rwa [ht, ← hs]
  case artifacts =>
    intro s hs t ht k l hk hl hne q hq hcomes
    have hle : q.length ≤ 2 := by
      rcases emptyFiles_key ht hl with ⟨-, rfl⟩ | ⟨-, rfl⟩
      all_goals exact emptyFiles_comesBy (by decide) (by decide) (by decide) hcomes
    have hplaces : (emptyFiles.placeOf (artifact (⟨"", ["build"]⟩) "a")).length = 3 ∧
        (emptyFiles.placeOf (artifact (⟨"", ["build"]⟩) "b")).length = 3 := by decide
    rw [(hlinks.leadsTo_iff.mp hq).2] at hle
    rcases emptyFiles_key hs hk with ⟨-, rfl⟩ | ⟨-, rfl⟩ <;> omega
  case short =>
    intro s hs
    refine ⟨hlinks.hasShortNames ?_ ?_, fun k hk => hlinks.hasShortNames ?_ ?_⟩
    · rcases hmem s hs with rfl | rfl <;> decide
    · rcases hmem s hs with rfl | rfl <;> decide
    · rcases emptyFiles_key hs hk with ⟨-, rfl⟩ | ⟨-, rfl⟩ <;> decide
    · rcases emptyFiles_key hs hk with ⟨-, rfl⟩ | ⟨-, rfl⟩ <;> decide
  case shallow =>
    intro s hs k hk
    rcases emptyFiles_key hs hk with ⟨-, rfl⟩ | ⟨-, rfl⟩ <;> decide
  case calls => decide
  case empty =>
    intro b q hb hq
    have hlong := emptyFiles_below hb hq
    cases hn : emptyFiles.node? q with
    | none => rfl
    | some n =>
      have hmem := mem_nodes hn (by
        rintro rfl
        simp at hlong)
      simp only [emptyFiles, List.mem_cons, Prod.mk.injEq, List.not_mem_nil, or_false] at hmem
      rcases hmem with ⟨rfl, -⟩ | ⟨rfl, -⟩ <;> simp at hlong

/-- A workspace with a source in a directory, one beside it and one further down. -/
def nestedFiles : FileSystem where
  nodes := [(["w"], .directory 0), (["w", "c.graphql"], .file (Utf8.encode "scalar C".toList) 0),
    (["w", "sub"], .directory 0),
    (["w", "sub", "x.graphql"], .file (Utf8.encode "scalar X".toList) 0),
    (["w", "sub", "sub"], .directory 0),
    (["w", "sub", "sub", "y.graphql"], .file (Utf8.encode exampleText) 0),
    (["w", "build"], .directory 0)]
  workingDirectory := ["w"]
  now := 0

/-- What is left when the source in the directory is compiled. -/
def nestedCompiled [Machine] : FileSystem :=
  (Step.compile [⟨"", ["sub", "x.graphql"]⟩]).apply ⟨"", ["build"]⟩ .here (nestedFiles.atTime 0)

/-- A document with one scalar type. -/
def scalarDocument (name : String) : Document := ⟨[.type ⟨none, name, [], .scalar⟩]⟩

/-- What is left when the document of the source in the directory is saved. -/
def nestedSaved : FileSystem :=
  (@Artifact.save .usual (scalarDocument "X") (artifact ⟨"", ["build"]⟩ "sub/x")
    (nestedFiles.atTime 0)).2

/-- A machine that grants no calls. -/
@[reducible]
def noCalls : Machine := ⟨0, 2 ^ 32⟩

theorem save_nestedFiles : ∀ m ∈ [Machine.usual, noCalls],
    @Artifact.save m (scalarDocument "X") (artifact ⟨"", ["build"]⟩ "sub/x") (nestedFiles.atTime 0) =
      (.ok (), nestedSaved) := by
  intro m hm
  rcases List.mem_pair.mp hm with rfl | rfl <;> rfl

theorem nestedCompiled_eq {m : Machine} (hm : m ∈ [Machine.usual, noCalls]) :
    @nestedCompiled m = nestedSaved := by
  have hsave := save_nestedFiles m hm
  have hname : IsSpelling .name ['X'] := .name (by decide) fun k => by cases k <;> decide
  have hread : (nestedFiles.atTime 0).read ⟨"", ["sub", "x.graphql"]⟩ =
      .ok (Utf8.encode (spellOut (scalarWords ['X']))) := by decide
  have hparse : parseFile (nestedFiles.atTime 0) ⟨"", ["sub", "x.graphql"]⟩ =
      .ok (scalarDocument "X") :=
    parseFile_of_parseDocument hread (by decide)
      (parseDocument_scalar hname fun _ _ _ _ => rfl)
  have hkey : (key (nestedFiles.atTime 0) .here ⟨"", ["sub", "x.graphql"]⟩).toOption =
      some "sub/x" := by decide
  have hstale : isFresh (nestedFiles.atTime 0) ⟨"", ["sub", "x.graphql"]⟩
      (artifact ⟨"", ["build"]⟩ "sub/x") = .ok false := by decide
  rw [nestedCompiled, Step.apply,
    files_singleton_of_parse hparse hkey hstale (by rw [hsave]; rfl), hsave]

theorem nestedSaved_files :
    (@files .usual [⟨"", ["build", "sub", "..", "..", "c.graphql"]⟩] ⟨"", ["build"]⟩ .here
      (nestedSaved.atTime 0)).1 = .ok [("c", scalarDocument "C")] := by
  let := Machine.usual
  have hname : IsSpelling .name ['C'] := .name (by decide) fun k => by cases k <;> decide
  have hread : (nestedSaved.atTime 0).read ⟨"", ["build", "sub", "..", "..", "c.graphql"]⟩ =
      .ok (Utf8.encode (spellOut (scalarWords ['C']))) := by decide
  have hparse : parseFile (nestedSaved.atTime 0)
      ⟨"", ["build", "sub", "..", "..", "c.graphql"]⟩ = .ok (scalarDocument "C") :=
    parseFile_of_parseDocument hread (by decide)
      (parseDocument_scalar hname fun _ _ _ _ => rfl)
  have hkey : (key (nestedSaved.atTime 0) .here
      ⟨"", ["build", "sub", "..", "..", "c.graphql"]⟩).toOption = some "c" := by decide
  have hstale : isFresh (nestedSaved.atTime 0) ⟨"", ["build", "sub", "..", "..", "c.graphql"]⟩
      (artifact ⟨"", ["build"]⟩ "c") = .ok false := by decide
  rw [files_singleton_of_parse hparse hkey hstale (by decide)]

/-- What is left then when the build directory is emptied. -/
def nestedEmptied : FileSystem :=
  { nestedSaved.atTime 0 with
    nodes := (nestedSaved.atTime 0).nodes.filter fun e => ¬ IsBelow ["w", "build"] e.1 }

theorem emptied_nestedSaved :
    emptied ⟨"", ["build"]⟩ (nestedSaved.atTime 0) = nestedEmptied := by
  have hlinks : (nestedSaved.atTime 0).HasNoLinks := by
    intro q hq
    have hcompiles : KeepsLinks (nestedFiles.atTime 0) (@nestedCompiled .usual) :=
      @keepsLinks_filesInto .usual _ _ _ _ _
    rw [nestedCompiled_eq (by simp)] at hcompiles
    have hkeeps := ((keepsLinks_atTime nestedFiles 0).trans hcompiles).trans
      (keepsLinks_atTime nestedSaved 0)
    exact hasNoLinks_of_nodes (by simp [nestedFiles]) q ((hkeeps.isLink q).mp hq)
  obtain ⟨hdirectory, hstart, hplace⟩ : (nestedSaved.atTime 0).isDirectory ⟨"", ["build"]⟩ = true ∧
      (nestedSaved.atTime 0).start ⟨"", ["build"]⟩ = ["w"] ∧
      (nestedSaved.atTime 0).placeOf ⟨"", ["build"]⟩ = ["w", "build"] := by decide
  obtain ⟨b, time, hfind⟩ := isDirectory_iff.mp hdirectory
  obtain rfl : b = ["w", "build"] :=
    (hlinks.leadsTo_iff.mp (find_leadsTo hfind (.inl rfl))).2.trans hplace
  refine emptied_eq_filter ⟨time, hfind⟩ fun q hq => ?_
  obtain ⟨v, hv, hqv⟩ := hq
  obtain ⟨before, hbefore, rfl⟩ := hlinks.comesBy_iff.mp hv
  rintro ⟨names, hne, rfl⟩
  have hlong := List.length_pos_iff.mpr hne
  have hle := hqv.length_le
  have hshort : before.length ≤ 1 := hbefore.length_le
  rw [goFrom_eq_append fun h => absurd (hbefore.subset h) (by decide)] at hle
  have hone : ((nestedSaved.atTime 0).start ⟨"", ["build"]⟩).length = 1 := congrArg List.length hstart
  simp only [hone, List.length_append, List.length_cons, List.length_nil] at hle
  omega

/-- After the source in the directory is compiled, compiling a path comes to something else than it
comes to with an empty build directory. -/
def Remembers [Machine] (c : Path) : Prop :=
  History nestedFiles .here ⟨"", ["build"]⟩ {⟨"", ["sub", "x.graphql"]⟩, c} nestedCompiled ∧
    (files [c] ⟨"", ["build"]⟩ .here (nestedCompiled.atTime 0)).1 ≠
      (files [c] ⟨"", ["build"]⟩ .here (emptied ⟨"", ["build"]⟩ (nestedCompiled.atTime 0))).1

theorem remembers_of_ne {m : Machine} (hm : m ∈ [Machine.usual, noCalls]) {c : Path}
    (h : (files [c] ⟨"", ["build"]⟩ .here (nestedSaved.atTime 0)).1 ≠
      (files [c] ⟨"", ["build"]⟩ .here nestedEmptied).1) : Remembers c := by
  refine ⟨.step .start (le_refl _) (by simp [Step.paths]), ?_⟩
  rwa [nestedCompiled_eq hm, emptied_nestedSaved]

/-- A path that leads through a directory which only compiling makes leads to a source as long as
that directory is there. -/
theorem remembers_through_build : @Remembers .usual ⟨"", ["build", "sub", "..", "..", "c.graphql"]⟩ := by
  have hemptied : (@files .usual [⟨"", ["build", "sub", "..", "..", "c.graphql"]⟩] ⟨"", ["build"]⟩ .here
      nestedEmptied).1.toOption.isSome = false := by decide
  refine remembers_of_ne (List.mem_cons_self) fun heq => ?_
  rw [← heq, nestedSaved_files] at hemptied
  exact nomatch hemptied

/-- A path to the source in the directory over a name that is too long. -/
def detour : Path := ⟨"", [nameOfSize 256, "..", "sub", "x.graphql"]⟩

theorem hasNull_detour : detour.hasNull = false :=
  Path.hasNull_eq_false_iff.mpr
    (List.forall_mem_cons.mpr ⟨notMem_nameOfSize (by decide) 256, by decide⟩)

theorem refusal?_detour : refusal? detour = none :=
  refusal?_eq_none.mpr ⟨hasNull_detour, by decide +kernel⟩

theorem stat_detour (fs : FileSystem) : fs.stat detour = .error .nameTooLong := by
  have hfind : fs.find true detour = .error .nameTooLong := by
    rw [find, refusal?_detour]
    show walkFrom fs true _ fs.workingDirectory (nameOfSize 256 :: _) = _
    rw [walkFrom, if_neg (nameOfSize_ne_dots 256), if_pos (by rw [utf8ByteSize_nameOfSize]; decide)]
  rw [stat, hfind]

theorem resolve_detour : ∀ fs ∈ [nestedFiles, nestedSaved.atTime 0, nestedEmptied],
    fs.resolve detour = .ok (.absolute ["w", "sub", "x.graphql"]) := by
  simp only [resolve, hasNull_detour, Bool.false_eq_true, if_false]
  decide +kernel

theorem remembers_detour : @Remembers .usual detour := by
  have hkey (fs : FileSystem) (hfs : fs ∈ [nestedFiles, nestedSaved.atTime 0, nestedEmptied])
      (hroot : fs.resolve .here = .ok (.absolute ["w"])) :
      key fs .here detour = .ok (keyOfParts ["sub", "x.graphql"]) :=
    (LiesBelow.of_plain ⟨_, _, resolve_detour fs hfs, hroot, rfl⟩ (by decide)).key_eq
  have hmade : (nestedSaved.atTime 0).ask (artifact ⟨"", ["build"]⟩ (keyOfParts ["sub", "x.graphql"]))
      ((nestedSaved.atTime 0).time? (artifact ⟨"", ["build"]⟩ (keyOfParts ["sub", "x.graphql"]))) =
        .ok (some 0) := by decide
  have hnone : nestedEmptied.ask (artifact ⟨"", ["build"]⟩ (keyOfParts ["sub", "x.graphql"]))
      (nestedEmptied.time? (artifact ⟨"", ["build"]⟩ (keyOfParts ["sub", "x.graphql"]))) =
        .ok none := by decide
  have hread : nestedEmptied.read detour = .error .nameTooLong := by
    rw [FileSystem.read, stat_detour]
  exact remembers_of_ne List.mem_cons_self (@files_singleton_ne _ _ _ _ _ _ .usual _ _
    (hkey _ (by simp) (by decide)) (hkey _ (by simp) (by decide))
    (by rw [isFresh, hmade, ask_eq_error.mpr ⟨stat_detour _, rfl⟩])
    (by rw [isFresh, hnone]) hread (by decide))

def isLinkNode : FileNode → Bool
  | .link _ => true
  | _ => false

theorem nested_plain : ∀ fs ∈ [nestedFiles, nestedSaved.atTime 0, nestedEmptied],
    fs.IsSound ∧ fs.HasNoLinks ∧ fs.workingDirectory = ["w"] := by
  have hnodes : ∀ fs ∈ [nestedFiles, nestedSaved.atTime 0, nestedEmptied],
      (fs.workingDirectory = ["w"] ∧ fs.IsDirectoryAt fs.workingDirectory) ∧ ∀ e ∈ fs.nodes,
        (fs.IsDirectoryAt e.1.dropLast ∧ IsEntryName (e.1.getLastD "")) ∧
          isLinkNode e.2 = false := by decide
  intro fs hfs
  obtain ⟨⟨hworking, hdirectory⟩, hall⟩ := hnodes fs hfs
  refine ⟨isSound_of_nodes hdirectory fun e he => (hall e he).1,
    hasNoLinks_of_nodes fun e he target htarget => ?_, hworking⟩
  have hno := (hall e he).2
  rw [htarget] at hno
  cases hno

theorem areDirectoryNames_sub : AreDirectoryNames ["sub"] :=
  ⟨by decide, by decide, by decide⟩

/-- A source that is not there, for which there cannot be an artifact. -/
theorem remembers_longSource : nestedFiles.resolve (longSource ["sub"] 250) =
      .ok (.absolute ["w", "sub", nameOfSize 250]) ∧ @Remembers .usual (longSource ["sub"] 250) := by
  have hn : 250 ≠ 0 := by decide
  have hsub := areDirectoryNames_sub
  obtain ⟨hsound, hlinks, -⟩ := nested_plain nestedFiles (by simp)
  obtain ⟨hsoundSaved, hlinksSaved, -⟩ := nested_plain (nestedSaved.atTime 0) (by simp)
  obtain ⟨hsoundEmptied, hlinksEmptied, -⟩ := nested_plain nestedEmptied (by simp)
  obtain ⟨hlost, hdirectory, hnone⟩ : nestedEmptied.node? (["w", "build"] ++ ["sub"]) = none ∧
      nestedEmptied.IsDirectoryAt (nestedEmptied.workingDirectory ++ ["sub"]) ∧
      nestedEmptied.node? (nestedEmptied.workingDirectory ++ (["sub"] ++ [nameOfSize 250])) = none := by
    decide +kernel
  have hbuild : nestedEmptied.IsDirectory ⟨"", ["build"]⟩ ["w", "build"] := by
    obtain ⟨time, htime⟩ : nestedEmptied.IsDirectoryAt ["w", "build"] := by decide
    exact ⟨time, find_below true hsoundEmptied.isDirectory_here (List.cons_ne_nil _ _) (by decide)
      fun _ => walkFrom_node hsoundEmptied htime (by simp)⟩
  obtain ⟨hasked, haskedSource⟩ :
      refusal? ((⟨"", ["build"]⟩ : Path).below (["sub"] ++ [longArtifactName 250])) = none ∧
        refusal? (longSource ["sub"] 250) = none := by
    decide +kernel
  have hfresh : isFresh nestedEmptied (longSource ["sub"] 250)
      (artifact ⟨"", ["build"]⟩ (keyOfParts (["sub"] ++ [nameOfSize 250]))) = .ok false :=
    isFresh_longSource_of_none hn hsub hsoundEmptied hasked hbuild hlost
  have hne := @files_singleton_ne _ _ _ _ _ _ .usual _ _
    (key_longSource hsub hn hsoundSaved hlinksSaved).2
    (key_longSource hsub hn hsoundEmptied hlinksEmptied).2
    (isFresh_longSource hsub hn (by decide) (by decide)) hfresh
    ((read_longSource hsub (by decide) haskedSource hsoundEmptied hdirectory).1 hnone) (by decide)
  exact ⟨(key_longSource hsub hn hsound hlinks).1, remembers_of_ne List.mem_cons_self hne⟩

/-- A source whose artifact can only be saved where one of its directories is there. -/
theorem remembers_further_down : @Remembers noCalls ⟨"", ["sub", "sub", "y.graphql"]⟩ := by
  let := noCalls
  have hkey : ∀ fs ∈ [nestedSaved.atTime 0, nestedEmptied],
      (key fs .here ⟨"", ["sub", "sub", "y.graphql"]⟩).toOption = some "sub/sub/y" ∧
      fs.read ⟨"", ["sub", "sub", "y.graphql"]⟩ = .ok (Utf8.encode exampleText) ∧
      isFresh fs ⟨"", ["sub", "sub", "y.graphql"]⟩ (artifact ⟨"", ["build"]⟩ "sub/sub/y") =
        .ok false := by
    decide
  obtain ⟨hkey', hread', hstale'⟩ := hkey nestedEmptied (by simp)
  obtain ⟨hkey, hread, hstale⟩ := hkey (nestedSaved.atTime 0) (by simp)
  have hdeep : (Artifact.save exampleDocument (artifact ⟨"", ["build"]⟩ "sub/sub/y")
      nestedEmptied).1.toOption = none := by decide
  obtain ⟨f, hf⟩ := exists_error_of_toOption hdeep
  have hfault := file_of_save_error (.inl hstale') (parseFile_exampleText hread') (Prod.ext hf rfl)
  refine remembers_of_ne (by simp) fun heq => ?_
  rw [files_singleton_of_parse (parseFile_exampleText hread) hkey hstale (by decide),
    files, filesInto_of_error (eq_ok_of_toOption hkey') rfl hfault []] at heq
  cases heq

end Compile

end GraphQLDoc
