import GraphQLDoc.Proofs.Glob.Select
import GraphQLDoc.Workspace.Sources
import Mathlib.Data.List.Sort
import Mathlib.Data.String.Basic

/-!
The sources of a workspace where there are no links: the files outside of the build directory that go
over names which a pattern selects, in the order of their names. They stay the same when files are
made in the build directory only.
-/
namespace GraphQLDoc

open FileSystem

namespace Path

theorem before_iff {as bs : List String} : before as bs = true ↔ as < bs := by
  induction as generalizing bs with
  | nil => cases bs <;> simp [before]
  | cons a as ih => cases bs <;> simp [before, ih, List.cons_lt_cons_iff]

theorem before_append (front as bs : List String) :
    before (front ++ as) (front ++ bs) = before as bs := by
  induction front with
  | nil => rfl
  | cons a front ih => simp [before, ih]

/-- Putting names behind a path into increasing ones. -/
theorem exists_insertInto (root : Path) {found : List (List String)} (h : found.Pairwise (· < ·))
    (names : List String) : ∃ more : List (List String), more.Pairwise (· < ·) ∧
      (root.below names).insertInto (found.map root.below) = more.map root.below ∧
      ∀ x, x ∈ more ↔ x = names ∨ x ∈ found := by
  induction found with
  | nil => exact ⟨[names], List.pairwise_singleton _ _, rfl, fun x => by simp⟩
  | cons a found ih =>
    obtain ⟨ha, hfound⟩ := List.pairwise_cons.mp h
    rw [List.map_cons, insertInto]
    simp only [below, before_append, List.append_cancel_left_eq]
    by_cases hbefore : before names a = true
    · have hlt := before_iff.mp hbefore
      refine ⟨names :: a :: found, List.pairwise_cons.mpr ⟨?_, h⟩, by rw [if_pos hbefore]; rfl,
        fun x => List.mem_cons⟩
      exact List.forall_mem_cons.mpr ⟨hlt, fun x hx => hlt.trans (ha x hx)⟩
    rw [if_neg hbefore]
    by_cases heq : names = a
    · refine ⟨a :: found, h, by rw [if_pos heq]; rfl, fun x => ?_⟩
      rw [heq, List.mem_cons]
      exact ⟨.inr, fun hx => hx.elim .inl id⟩
    rw [if_neg heq]
    obtain ⟨more, hmore, hinsert, hmem⟩ := ih hfound
    have hlt : a < names :=
      lt_of_le_of_ne (not_lt.mp fun hlt => hbefore (before_iff.mpr hlt)) (Ne.symm heq)
    refine ⟨a :: more, List.pairwise_cons.mpr ⟨fun x hx => ?_, hmore⟩,
      congrArg (root.below a :: ·) hinsert, fun x => ?_⟩
    · rcases (hmem x).mp hx with rfl | hx
      · exact hlt
      · exact ha x hx
    · rw [List.mem_cons, hmem, List.mem_cons]
      tauto

theorem below_injective (p : Path) : Function.Injective p.below := fun _ _ h =>
  List.append_cancel_left (congrArg parts h)

end Path

namespace Sources

variable {fs gs : FileSystem} {r q names : List String} {root build : Path} {found : List Path}
  {places : List (List String)} {patterns : List JsonString} {config : Config}

/-- A file that is not in the build directory. -/
def IsOutside (fs : FileSystem) (build : Path) (q : List String) : Prop :=
  (∃ bytes time, fs.node? q = some (.file bytes time)) ∧ build.behind? (.absolute q) = none

/-- A pattern selects a place. -/
def IsSelected (fs : FileSystem) (r : List String) (pattern : JsonString) (q : List String) : Prop :=
  ∃ s cs names, pattern = .text s ∧ Glob.ofText s = .ok cs ∧ q = r ++ names ∧
    Glob.Selects fs cs r names

theorem isSelected_append {pattern : JsonString} : IsSelected fs r pattern (r ++ names) ↔
    ∃ s cs, pattern = .text s ∧ Glob.ofText s = .ok cs ∧ Glob.Selects fs cs r names := by
  constructor
  · rintro ⟨s, cs, names', hs, hcs, heq, hselects⟩
    obtain rfl := List.append_cancel_left heq
    exact ⟨s, cs, hs, hcs, hselects⟩
  · rintro ⟨s, cs, hs, hcs, hselects⟩
    exact ⟨s, cs, names, hs, hcs, rfl, hselects⟩

/-- A pattern that is a text says components. -/
def IsPattern (pattern : JsonString) : Prop := ∀ s, pattern = .text s → ∃ cs, Glob.ofText s = .ok cs

/-- The names in a pattern are names of entries: it goes up nowhere, and no name is too long. -/
def NamesEntries : JsonString → Prop
  | .text s => ∀ part ∈ (Path.ofString s).parts, Glob.hasWildcard part.toList = false → IsEntryName part
  | .unpaired _ => True

theorem NamesEntries.components {s name : String} {cs : List Glob.Component}
    (h : NamesEntries (.text s)) (hcs : Glob.ofText s = .ok cs) (hname : .name name ∈ cs) :
    IsEntryName name := by
  have hcomponent (part : String) (hpart : Glob.component part = .ok (.name name)) :
      part = name ∧ Glob.hasWildcard part.toList = false := by
    unfold Glob.component at hpart
    dsimp only at hpart
    split at hpart
    · cases hpart
    · split at hpart
      · cases hpart
      · split at hpart
        · cases hpart
        · cases hpart
          exact ⟨rfl, by simpa using ‹¬ Glob.hasWildcard _ = true›⟩
  have hmapM (parts : List String) (cs : List Glob.Component)
      (hparts : parts.mapM Glob.component = .ok cs) (hmem : .name name ∈ cs) :
      name ∈ parts ∧ Glob.hasWildcard name.toList = false := by
    induction parts generalizing cs with
    | nil =>
      cases hparts
      cases hmem
    | cons part parts ih =>
      rw [List.mapM_cons] at hparts
      cases hfirst : Glob.component part with
      | error e =>
        rw [hfirst] at hparts
        cases hparts
      | ok c =>
        cases hmore : parts.mapM Glob.component with
        | error e =>
          rw [hfirst, hmore] at hparts
          cases hparts
        | ok more =>
          rw [hfirst, hmore] at hparts
          cases hparts
          rcases List.mem_cons.mp hmem with rfl | hmem
          · obtain ⟨rfl, hwildcard⟩ := hcomponent part hfirst
            exact ⟨List.mem_cons_self, hwildcard⟩
          · exact (ih more hmore hmem).imp_left (List.mem_cons_of_mem _)
  unfold Glob.ofText at hcs
  dsimp only at hcs
  split at hcs
  · cases hcs
  split at hcs
  · cases hcs
  split at hcs
  · split at hcs <;> cases hcs
  cases hcomponents : (Path.ofString s).parts.mapM Glob.component with
  | error e =>
    rw [hcomponents] at hcs
    cases hcs
  | ok components =>
    rw [hcomponents] at hcs
    cases hcs
    suffices hmem : .name name ∈ components by
      obtain ⟨hpart, hwildcard⟩ := hmapM _ _ hcomponents hmem
      exact h name hpart hwildcard
    rcases List.mem_append.mp hname with hmem | hmem
    · exact hmem
    · split at hmem
      · cases List.mem_singleton.mp hmem
      · cases hmem

theorem add_ok (fs : FileSystem) (build : Path) (found : List Path) (p : Path) :
    add fs build found (.ok p) = do
      let real ← (fs.resolve p).mapError Fault.resolve
      let isFile ← (fs.ask p (fs.isFile p)).mapError Fault.file
      return if isFile && (build.behind? real).isNone then p.insertInto found else found := rfl

section Tree

variable (h : IsTree fs r)
include h

section Room

variable (hroom : fs.HasRoom root r) (hroot : fs.IsDirectory root r)
include hroom hroot

/-- Where names behind the root really lead. -/
theorem resolve_below (hnode : ∃ n, fs.node? (r ++ names) = some n) :
    fs.resolve (root.below names) = .ok (.absolute (r ++ names)) := by
  obtain ⟨n, hn⟩ := hnode
  have hfind : fs.find true (root.below names) = .ok (.node (r ++ names) n) :=
    h.find_node hroom hroot hn (.inr rfl)
  exact h.sound.resolve_of_leadsTo (find_leadsTo hfind (.inl rfl))

/-- The sources with one more path. -/
theorem add_eq (build : Path) (hnode : ∃ n, fs.node? (r ++ names) = some n)
    (hplaces : places.Pairwise (· < ·)) : ∃ more : List (List String), more.Pairwise (· < ·) ∧
      add fs build (places.map root.below) (.ok (root.below names)) = .ok (more.map root.below) ∧
      ∀ x, x ∈ more ↔ x ∈ places ∨ x = names ∧ IsOutside fs build (r ++ x) := by
  have hdots : ".." ∉ names := Glob.dots_notMem h hnode
  have hkept : (fs.isFile (root.below names) && (build.behind? (.absolute (r ++ names))).isNone) =
      true ↔ IsOutside fs build (r ++ names) := by
    rw [Bool.and_eq_true, Option.isNone_iff_eq_none, h.isFile_iff hroom hroot hdots, IsOutside]
  have hadd : add fs build (places.map root.below) (.ok (root.below names)) =
      .ok (if fs.isFile (root.below names) && (build.behind? (.absolute (r ++ names))).isNone then
        (root.below names).insertInto (places.map root.below) else places.map root.below) := by
    obtain ⟨n, hn⟩ := id hnode
    rw [add_ok, resolve_below h hroom hroot hnode, ask_of_find (h.find_node hroom hroot hn (.inr rfl))]
    rfl
  rw [hadd]
  by_cases hout : IsOutside fs build (r ++ names)
  · obtain ⟨more, hmore, hinsert, hmem⟩ := Path.exists_insertInto root hplaces names
    refine ⟨more, hmore, by rw [if_pos (hkept.mpr hout), hinsert], fun x => ?_⟩
    rw [hmem, or_comm]
    exact or_congr_right ⟨fun hx => ⟨hx, hx ▸ hout⟩, And.left⟩
  · refine ⟨places, hplaces, by rw [if_neg (mt hkept.mp hout)], fun x => ?_⟩
    refine (or_iff_left ?_).symm
    rintro ⟨rfl, hx⟩
    exact hout hx

/-- The sources with more paths. -/
theorem foldlM_add (build : Path) {ps : List (Except FileError Path)}
    (hps : ∀ o ∈ ps, ∃ names, o = .ok (root.below names) ∧ ∃ n, fs.node? (r ++ names) = some n)
    (hplaces : places.Pairwise (· < ·)) :
    ∃ more : List (List String), more.Pairwise (· < ·) ∧
      ps.foldlM (add fs build) (places.map root.below) = .ok (more.map root.below) ∧
      ∀ x, x ∈ more ↔ x ∈ places ∨ .ok (root.below x) ∈ ps ∧ IsOutside fs build (r ++ x) := by
  induction ps generalizing places with
  | nil => exact ⟨places, hplaces, rfl, fun x => by simp⟩
  | cons p ps ih =>
    obtain ⟨⟨names, rfl, hnode⟩, hrest⟩ := List.forall_mem_cons.mp hps
    obtain ⟨some, hsome, hadd, hmemSome⟩ := add_eq h hroom hroot build hnode hplaces
    obtain ⟨more, hmore, hrun, hmem⟩ := ih hrest hsome
    refine ⟨more, hmore, by rw [List.foldlM_cons, hadd]; exact hrun, fun x => ?_⟩
    rw [hmem, hmemSome, List.mem_cons, Except.ok.injEq, (Path.below_injective root).eq_iff]
    tauto

end Room

variable [Machine] (hshallow : Glob.IsShallow fs root r) (hroot : fs.IsDirectory root r)
include hshallow hroot

/-- The sources with what one more pattern selects. -/
theorem addSelected_eq (build : Path) {pattern : JsonString} (hpattern : IsPattern pattern)
    (hnames : NamesEntries pattern) (hplaces : places.Pairwise (· < ·)) :
    ∃ more : List (List String), more.Pairwise (· < ·) ∧
      addSelected fs root build (places.map root.below) pattern = .ok (more.map root.below) ∧
      ∀ x, x ∈ more ↔ x ∈ places ∨
        IsSelected fs r pattern (r ++ x) ∧ IsOutside fs build (r ++ x) := by
  cases pattern with
  | unpaired points =>
    refine ⟨places, hplaces, rfl, fun x => ?_⟩
    rw [or_iff_left fun hx => ?_]
    obtain ⟨⟨s, _, _, hs, -⟩, -⟩ := hx
    cases hs
  | text s =>
    obtain ⟨cs, hcs⟩ := hpattern s rfl
    obtain ⟨time, htime⟩ := id h.root
    have hselect : selected fs root (.text s) = .ok (Glob.selectFrom fs cs root) := by
      have hdirectory : fs.isDirectory root = true :=
        isDirectory_iff.mpr (hroot.elim fun _ hfind => ⟨_, _, hfind⟩)
      rw [selected, hcs]
      show Except.ok (Glob.select fs cs root) = _
      rw [Glob.select, ask_isDirectory hdirectory, Glob.selectIf_ok, if_pos hdirectory]
    have hmem (o : Except FileError Path) : o ∈ Glob.selectFrom fs cs root ↔
        ∃ names, o = .ok (root.below names) ∧ Glob.Selects fs cs r names := by
      have hhere : Glob.IsNext fs cs (r ++ []) := by
        rw [List.append_nil]
        exact ⟨h.root.exists_node, fun _ => h.root⟩
      have hiff := Glob.mem_selectFrom h hroot hshallow (q := []) (o := o)
        (fun _ => hnames.components hcs) hhere
      rwa [Path.below_nil, List.append_nil] at hiff
    have hselected (o : Except FileError Path) (ho : o ∈ Glob.selectFrom fs cs root) :
        ∃ names, o = .ok (root.below names) ∧ ∃ n, fs.node? (r ++ names) = some n := by
      obtain ⟨names, rfl, hselects⟩ := (hmem o).mp ho
      exact ⟨names, rfl, hselects.exists_node ⟨_, htime⟩⟩
    obtain ⟨more, hmore, hrun, hmemMore⟩ := foldlM_add h hshallow.room hroot build hselected hplaces
    refine ⟨more, hmore, by rw [addSelected, hselect]; exact hrun, fun x => ?_⟩
    rw [hmemMore, hmem, isSelected_append]
    refine or_congr_right (and_congr_left fun _ => ?_)
    constructor
    · rintro ⟨names, hx, hselects⟩
      obtain rfl := Path.below_injective root (Except.ok.inj hx)
      exact ⟨s, cs, rfl, hcs, hselects⟩
    · rintro ⟨s', cs', hs, hcs', hselects⟩
      cases hs
      obtain rfl := Except.ok.inj (hcs.symm.trans hcs')
      exact ⟨x, rfl, hselects⟩

/-- The sources are the files outside of the build directory that some pattern selects. -/
theorem files_eq_ok (hpatterns : ∀ pattern ∈ config.sources, IsPattern pattern ∧ NamesEntries pattern)
    (hbuild : buildDirectory fs root config.buildDirectory = .ok build) :
    ∃ places : List (List String), places.Pairwise (· < ·) ∧
      files fs root config = .ok (places.map root.below) ∧
      ∀ x, x ∈ places ↔ (∃ pattern ∈ config.sources, IsSelected fs r pattern (r ++ x)) ∧
        IsOutside fs build (r ++ x) := by
  have hfold (patterns : List JsonString)
      (hpatterns : ∀ pattern ∈ patterns, IsPattern pattern ∧ NamesEntries pattern)
      (places : List (List String)) (hplaces : places.Pairwise (· < ·)) :
      ∃ more : List (List String), more.Pairwise (· < ·) ∧
        patterns.foldlM (addSelected fs root build) (places.map root.below) =
          .ok (more.map root.below) ∧
        ∀ x, x ∈ more ↔ x ∈ places ∨ (∃ pattern ∈ patterns, IsSelected fs r pattern (r ++ x)) ∧
          IsOutside fs build (r ++ x) := by
    induction patterns generalizing places with
    | nil => exact ⟨places, hplaces, rfl, fun x => by simp⟩
    | cons pattern patterns ih =>
      obtain ⟨⟨hpattern, hnames⟩, hpatterns⟩ := List.forall_mem_cons.mp hpatterns
      obtain ⟨some, hsome, hadd, hmemSome⟩ :=
        addSelected_eq h hshallow hroot build hpattern hnames hplaces
      obtain ⟨more, hmore, hrun, hmem⟩ := ih hpatterns some hsome
      refine ⟨more, hmore, by rw [List.foldlM_cons, hadd]; exact hrun, fun x => ?_⟩
      rw [hmem, hmemSome, List.exists_mem_cons_iff]
      tauto
  obtain ⟨places, hplaces, hrun, hmem⟩ := hfold config.sources hpatterns [] .nil
  refine ⟨places, hplaces, by rw [files, hbuild]; exact hrun, fun x => ?_⟩
  rw [hmem, or_iff_right List.not_mem_nil]

end Tree

variable [Machine]

/-- Where sources are found, all patterns are patterns. -/
theorem isPattern_of_files (hrun : files fs root config = .ok found) :
    (∃ build, buildDirectory fs root config.buildDirectory = .ok build) ∧
      ∀ pattern ∈ config.sources, IsPattern pattern := by
  have hselected {build : Path} {found more : List Path} {pattern : JsonString}
      (hadd : addSelected fs root build found pattern = .ok more) : IsPattern pattern := by
    rintro s rfl
    cases hcs : Glob.ofText s with
    | ok cs => exact ⟨cs, rfl⟩
    | error e =>
      rw [addSelected, selected, hcs] at hadd
      cases hadd
  have hfold {build : Path} (patterns : List JsonString) (found more : List Path)
      (hfold : patterns.foldlM (addSelected fs root build) found = .ok more) :
      ∀ pattern ∈ patterns, IsPattern pattern := by
    induction patterns generalizing found with
    | nil => exact List.forall_mem_nil _
    | cons pattern patterns ih =>
      rw [List.foldlM_cons] at hfold
      cases hadd : addSelected fs root build found pattern with
      | error e =>
        rw [hadd] at hfold
        cases hfold
      | ok next =>
        rw [hadd] at hfold
        exact List.forall_mem_cons.mpr ⟨hselected hadd, ih next hfold⟩
  rw [files] at hrun
  cases hbuild : buildDirectory fs root config.buildDirectory with
  | error e =>
    rw [hbuild] at hrun
    cases hrun
  | ok build =>
    rw [hbuild] at hrun
    exact ⟨⟨build, rfl⟩, hfold config.sources [] found hrun⟩

/-- Sources are found only where the build directory is a text that leads somewhere. -/
theorem exists_build_of_files (hrun : files fs root config = .ok found) :
    ∃ s real, config.buildDirectory = .text s ∧
      fs.resolve (root.join (.ofString s)) = .ok real := by
  obtain ⟨⟨real, hreal⟩, -⟩ := isPattern_of_files hrun
  cases hbuild : config.buildDirectory with
  | unpaired points =>
    rw [hbuild] at hreal
    cases hreal
  | text s =>
    refine ⟨s, real, rfl, ?_⟩
    rw [hbuild, buildDirectory] at hreal
    cases hresolve : fs.resolve (root.join (.ofString s)) with
    | error e =>
      rw [hresolve] at hreal
      cases hreal
    | ok a =>
      rw [hresolve] at hreal
      exact congrArg Except.ok (Except.ok.inj hreal)

/-- The sources stay the same where nothing is gone and no file is new but in the build directory. -/
theorem files_of_grows (hfs : IsTree fs r) (hgs : IsTree gs r) (hgrows : Grows fs gs)
    (hshallow : Glob.IsShallow gs (.absolute r) r)
    (hnames : ∀ pattern ∈ config.sources, NamesEntries pattern)
    (hbuild : ∀ build, buildDirectory fs (.absolute r) config.buildDirectory = .ok build →
      buildDirectory gs (.absolute r) config.buildDirectory = .ok build ∧
        ∀ q bytes time, gs.node? q = some (.file bytes time) → build.behind? (.absolute q) = none →
          ∃ n, fs.node? q = some n)
    (hrun : files fs (.absolute r) config = .ok found) : files gs (.absolute r) config = .ok found := by
  obtain ⟨⟨build, hb⟩, hpatterns⟩ := isPattern_of_files hrun
  obtain ⟨hb', hold⟩ := hbuild build hb
  have hall (pattern : JsonString) (hpattern : pattern ∈ config.sources) :
      IsPattern pattern ∧ NamesEntries pattern :=
    ⟨hpatterns pattern hpattern, hnames pattern hpattern⟩
  have hshallow' := hshallow.of_grows hgrows
  obtain ⟨places, hplaces, hfiles, hmem⟩ :=
    files_eq_ok hfs hshallow' (hfs.isDirectory hshallow'.room rfl) hall hb
  obtain ⟨more, hmore, hfiles', hmem'⟩ :=
    files_eq_ok hgs hshallow (hgs.isDirectory hshallow.room rfl) hall hb'
  obtain rfl := Except.ok.inj (hrun.symm.trans hfiles)
  rw [hfiles', hmore.eq_of_mem_iff hplaces fun x => ?_]
  rw [hmem, hmem']
  simp only [isSelected_append]
  constructor
  · rintro ⟨⟨pattern, hpattern, s, cs, rfl, hcs, hselects⟩, ⟨bytes, time, hfile⟩, hout⟩
    obtain ⟨n, hn⟩ := hold _ bytes time hfile hout
    have hkind := hgrows.node _ _ hn
    rw [hfile] at hkind
    refine ⟨⟨_, hpattern, s, cs, rfl, hcs, hselects.of_grows hgrows ?_⟩, ?_, hout⟩
    · -- what stands before a file that was there was there
      rintro before ⟨rest, rfl⟩
      by_cases hnil : rest = []
      · rw [hnil, List.append_nil] at hn
        exact ⟨n, hn⟩
      · rw [← List.append_assoc] at hn
        exact (hfs.sound.front hnil hn).elim fun _ htime => ⟨_, htime⟩
    · cases hkind
      exact ⟨_, _, hn⟩
  · rintro ⟨⟨pattern, hpattern, s, cs, rfl, hcs, hselects⟩, ⟨bytes, time, hfile⟩, hout⟩
    refine ⟨⟨_, hpattern, s, cs, rfl, hcs, hselects.mono hgrows⟩, ?_, hout⟩
    have hkind := hgrows.node _ _ hfile
    generalize gs.node? (r ++ x) = m at hkind
    cases hkind
    exact ⟨_, _, rfl⟩

end Sources

end GraphQLDoc
