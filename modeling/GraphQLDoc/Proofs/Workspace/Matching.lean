import GraphQLDoc.Proofs.FileSystem.Tree
import GraphQLDoc.Proofs.Workspace.Sources

/-!
Patterns against names, and the sources as a set of files. A pattern matches names component by
component, two stars any number of them. Where there are no links the sources are the files outside of
the build directory whose names below the root are matched by some pattern, whatever the order of the
patterns is and however often they are given. Patterns that end in two stars or in a slash select
directories only, so they do not count.
-/
namespace GraphQLDoc

open FileSystem

namespace Glob

variable {fs : FileSystem} {q names parts : List String} {cs : List Component} {s part name : String}

/-- A component with a wildcard matches what the wildcards match, and any other only itself. -/
def MatchesName (part name : String) : Prop :=
  if hasWildcard part.toList then
    Wildcard.matchesAll (Wildcard.ofChars part.toList) name.toList = true
  else part = name

/-- Components match names one by one, and two stars any number of names. -/
inductive Matches : List String → List String → Prop where
  | done : Matches [] []
  | name {part name : String} {parts names : List String} (hpart : part ≠ "**")
      (hname : MatchesName part name) (h : Matches parts names) : Matches (part :: parts) (name :: names)
  | directories (front : List String) {parts names : List String} (h : Matches parts names) :
      Matches ("**" :: parts) (front ++ names)

/-- A pattern is relative and says something, its names are names of entries, and two stars in a row
are all of a component. -/
structure IsPlain (s : String) : Prop where
  relative : (Path.ofString s).isAbsolute = false
  parts : (Path.ofString s).parts ≠ []
  names : ∀ part ∈ (Path.ofString s).parts, hasWildcard part.toList = false → IsEntryName part
  stars : ∀ part ∈ (Path.ofString s).parts, hasTwoStars part.toList = true → part = "**"

instance (s : String) : Decidable (IsPlain s) :=
  decidable_of_iff ((Path.ofString s).isAbsolute = false ∧ (Path.ofString s).parts ≠ [] ∧
      (∀ part ∈ (Path.ofString s).parts, hasWildcard part.toList = false → IsEntryName part) ∧
      ∀ part ∈ (Path.ofString s).parts, hasTwoStars part.toList = true → part = "**")
    ⟨fun h => ⟨h.1, h.2.1, h.2.2.1, h.2.2.2⟩, fun h => ⟨h.1, h.2, h.3, h.4⟩⟩

/-- A pattern with two stars or nothing behind its last slash is about directories. -/
def IsForDirectories (s : String) : Prop :=
  (Path.ofString s).parts.getLast? = some "**" ∨ s.toList.getLast? = some '/'

instance (s : String) : Decidable (IsForDirectories s) :=
  inferInstanceAs (Decidable (_ ∨ _))

/-! Components. -/

/-- The component that a part of such a pattern says. -/
def componentOf (part : String) : Component :=
  if part = "**" then .directories
  else if hasWildcard part.toList then .wildcard (Wildcard.ofChars part.toList)
  else .name part

theorem component_eq (h : hasTwoStars part.toList = true → part = "**") :
    component part = .ok (componentOf part) := by
  unfold component componentOf
  by_cases hpart : part = "**"
  · rw [if_pos hpart, if_pos hpart]
  · rw [if_neg hpart, if_neg hpart, if_neg (mt h hpart)]
    split <;> rfl

theorem mapM_component (h : ∀ part ∈ parts, hasTwoStars part.toList = true → part = "**") :
    parts.mapM component = .ok (parts.map componentOf) := by
  induction parts with
  | nil => rfl
  | cons part parts ih =>
    obtain ⟨hpart, hparts⟩ := List.forall_mem_cons.mp h
    rw [List.mapM_cons, component_eq hpart, ih hparts]
    rfl

/-- The components of a pattern. -/
theorem IsPlain.ofText_eq (h : IsPlain s) : ofText s = .ok ((Path.ofString s).parts.map componentOf ++
    if s.toList.getLast? = some '/' then [.nothing] else []) := by
  have hempty : s ≠ "" := by
    rintro rfl
    exact h.parts rfl
  have hparts : (Path.ofString s).parts.isEmpty = false := List.isEmpty_eq_false_iff.mpr h.parts
  rw [ofText, if_neg hempty, if_neg (by simp [h.relative]), if_neg (by simp [hparts]),
    mapM_component h.stars]
  rfl

/-! What components select, one by one. -/

theorem selects_componentOf (hpart : part ≠ "**") : Selects fs (componentOf part :: cs) q names ↔
    ∃ name rest, names = name :: rest ∧ MatchesName part name ∧ IsNext fs cs (q ++ [name]) ∧
      Selects fs cs (q ++ [name]) rest := by
  unfold componentOf MatchesName
  rw [if_neg hpart]
  by_cases hwildcard : hasWildcard part.toList = true
  · simp only [if_pos hwildcard]
    constructor
    · intro h
      cases h with
      | wildcard hmatch hnext h => exact ⟨_, _, rfl, hmatch, hnext, h⟩
    · rintro ⟨name, rest, rfl, hmatch, hnext, h⟩
      exact .wildcard hmatch hnext h
  · simp only [if_neg hwildcard]
    constructor
    · intro h
      cases h with
      | name hnext h => exact ⟨_, _, rfl, rfl, hnext, h⟩
    · rintro ⟨name, rest, rfl, rfl, hnext, h⟩
      exact .name hnext h

theorem selects_stars : Selects fs (componentOf "**" :: cs) q names ↔
    ∃ front rest, names = front ++ rest ∧
      (∀ before, before ≠ [] → before <+: front → fs.IsDirectoryAt (q ++ before)) ∧
      Selects fs cs (q ++ front) rest := by
  constructor
  · intro h
    cases h with
    | directories hfront h => exact ⟨_, _, rfl, hfront, h⟩
  · rintro ⟨front, rest, rfl, hfront, h⟩
    exact .directories hfront h

/-- Selected names are matched. -/
theorem Selects.matches (h : Selects fs (parts.map componentOf) q names) : Matches parts names := by
  induction parts generalizing q names with
  | nil =>
    cases h
    exact .done
  | cons part parts ih =>
    rw [List.map_cons] at h
    by_cases hpart : part = "**"
    · subst hpart
      obtain ⟨front, rest, rfl, -, h⟩ := selects_stars.mp h
      exact .directories front (ih h)
    · obtain ⟨name, rest, rfl, hname, -, h⟩ := (selects_componentOf hpart).mp h
      exact .name hpart hname (ih h)

/-- Nothing is matched by two stars only. -/
theorem Matches.getLast?_of_nil (h : Matches parts []) (hne : parts ≠ []) :
    parts.getLast? = some "**" := by
  induction parts with
  | nil => exact absurd rfl hne
  | cons part parts ih =>
    generalize hnames : ([] : List String) = names at h
    cases h with
    | name => cases hnames
    | directories front h =>
      obtain ⟨rfl, rfl⟩ := List.append_eq_nil_iff.mp hnames.symm
      cases parts with
      | nil => rfl
      | cons next parts =>
        rw [List.getLast?_cons_cons]
        exact ih h (List.cons_ne_nil _ _)

/-- Behind the first component come more names if more components do. -/
theorem Matches.ne_nil (h : Matches parts names) (hne : parts ≠ [])
    (hlast : (part :: parts).getLast? ≠ some "**") : names ≠ [] ∧ parts.getLast? ≠ some "**" := by
  obtain ⟨next, more, rfl⟩ := List.exists_cons_of_ne_nil hne
  rw [List.getLast?_cons_cons] at hlast
  refine ⟨?_, hlast⟩
  rintro rfl
  exact hlast (h.getLast?_of_nil hne)

/-- What is matched and there is selected, unless directories only are asked for. -/
theorem Matches.selects (hsound : fs.IsSound) (h : Matches parts names)
    (hlast : parts.getLast? ≠ some "**") (hnode : ∃ n, fs.node? (q ++ names) = some n) :
    Selects fs (parts.map componentOf) q names := by
  induction h generalizing q with
  | done => exact .done q
  | @name part name parts names hpart hname h ih =>
    rw [List.append_cons] at hnode
    have hrest : IsNext fs (parts.map componentOf) (q ++ [name]) ∧
        Selects fs (parts.map componentOf) (q ++ [name]) names := by
      by_cases hnil : parts = []
      · subst hnil
        cases h
        rw [List.append_nil] at hnode
        exact ⟨⟨hnode, fun hne => absurd rfl hne⟩, .done _⟩
      · obtain ⟨hne, hlast⟩ := h.ne_nil hnil hlast
        have hdirectory : fs.IsDirectoryAt (q ++ [name]) :=
          hnode.elim fun _ hn => hsound.front hne hn
        exact ⟨⟨hdirectory.elim fun _ htime => ⟨_, htime⟩, fun _ => hdirectory⟩, ih hlast hnode⟩
    exact (selects_componentOf hpart).mpr ⟨name, names, rfl, hname, hrest.1, hrest.2⟩
  | @directories front parts names h ih =>
    have hnil : parts ≠ [] := by
      rintro rfl
      exact hlast rfl
    obtain ⟨hne, hlast⟩ := h.ne_nil hnil hlast
    refine selects_stars.mpr ⟨front, names, rfl, ?_, ih hlast (by rwa [List.append_assoc])⟩
    rintro before - ⟨more, rfl⟩
    have hmore : more ++ names ≠ [] := fun hnil => hne (List.append_eq_nil_iff.mp hnil).2
    rw [List.append_assoc before, ← List.append_assoc q] at hnode
    exact hnode.elim fun _ hn => hsound.front hmore hn

/-- Components that end in two stars or in a slash select directories. -/
theorem Selects.isDirectoryAt (h : Selects fs cs q names) (hq : fs.IsDirectoryAt q)
    (hlast : cs.getLast? = some .directories ∨ cs.getLast? = some .nothing) :
    fs.IsDirectoryAt (q ++ names) := by
  have hrest {c : Component} {rest : List Component} (hne : rest ≠ [])
      (hlast : (c :: rest).getLast? = some .directories ∨ (c :: rest).getLast? = some .nothing) :
      rest.getLast? = some .directories ∨ rest.getLast? = some .nothing := by
    obtain ⟨next, more, rfl⟩ := List.exists_cons_of_ne_nil hne
    rwa [List.getLast?_cons_cons] at hlast
  induction h with
  | done => simp at hlast
  | nothing => rwa [List.append_nil]
  | @name _ rest _ _ hnext _ ih | @wildcard _ _ rest _ _ _ hnext _ ih =>
    have hne : rest ≠ [] := by
      rintro rfl
      simp at hlast
    rw [List.append_cons]
    exact ih (hnext.2 hne) (hrest hne hlast)
  | @directories front rest q names hfront h ih =>
    have hdirectory : fs.IsDirectoryAt (q ++ front) := by
      by_cases hnil : front = []
      · rwa [hnil, List.append_nil]
      · exact hfront front hnil (List.prefix_refl _)
    rw [← List.append_assoc]
    by_cases hnil : rest = []
    · subst hnil
      cases h
      rwa [List.append_nil]
    · exact ih hdirectory (hrest hnil hlast)

/-- The files that a pattern selects are those that it matches, if it is not about directories. -/
theorem IsPlain.selects_iff (h : IsPlain s) (hsound : fs.IsSound) (hq : fs.IsDirectoryAt q)
    {bytes : List UInt8} {time : Int} (hfile : fs.node? (q ++ names) = some (.file bytes time)) :
    (∃ cs, ofText s = .ok cs ∧ Selects fs cs q names) ↔
      ¬ IsForDirectories s ∧ Matches (Path.ofString s).parts names := by
  constructor
  · rintro ⟨cs, hcs, hselects⟩
    obtain rfl := Except.ok.inj (h.ofText_eq.symm.trans hcs)
    have hfor : ¬ IsForDirectories s := by
      intro hfor
      obtain ⟨made, hdirectory⟩ := hselects.isDirectoryAt hq (by
        by_cases hslash : s.toList.getLast? = some '/'
        · rw [if_pos hslash, List.getLast?_concat]
          exact .inr rfl
        · rw [if_neg hslash, List.append_nil, List.getLast?_map, hfor.resolve_right hslash]
          exact .inl rfl)
      cases hfile.symm.trans hdirectory
    rw [if_neg fun hslash => hfor (.inr hslash), List.append_nil] at hselects
    exact ⟨hfor, hselects.matches⟩
  · rintro ⟨hfor, hmatches⟩
    refine ⟨_, h.ofText_eq, ?_⟩
    rw [if_neg fun hslash => hfor (.inr hslash), List.append_nil]
    exact hmatches.selects hsound (fun hlast => hfor (.inl hlast)) ⟨_, hfile⟩

end Glob

/-! Sources. -/

theorem Path.behind?_eq_none_iff {d q : List String} :
    (absolute d).behind? (absolute q) = none ↔ ¬ d <+: q := by
  simp [behind?, absolute]

namespace Sources

variable {fs : FileSystem} {r d names : List String} {root : Path} {b s : String}

/-- A file outside of the build directory is selected by the patterns that match its names. -/
theorem isSelected_iff (h : IsTree fs r) (hplain : Glob.IsPlain s) {bytes : List UInt8} {time : Int}
    (hfile : fs.node? (r ++ names) = some (.file bytes time)) :
    IsSelected fs r (.text s) (r ++ names) ↔
      ¬ Glob.IsForDirectories s ∧ Glob.Matches (Path.ofString s).parts names := by
  rw [← hplain.selects_iff h.sound h.root hfile, isSelected_append]
  constructor
  · rintro ⟨s', cs, hs, hcs, hselects⟩
    cases hs
    exact ⟨cs, hcs, hselects⟩
  · rintro ⟨cs, hcs, hselects⟩
    exact ⟨s, cs, rfl, hcs, hselects⟩

section Tree

variable [Machine] {patterns : List String} (h : IsTree fs r)
  (hshallow : Glob.IsShallow fs root r) (hroot : fs.IsDirectory root r)
  (hbuild : fs.LeadsTo (root.join (.ofString b)) d) (hplain : ∀ s ∈ patterns, Glob.IsPlain s)
include h hshallow hroot hbuild hplain

/-- The names of the sources below the root. -/
theorem exists_names_of_files : ∃ found : List (List String), found.Pairwise (· < ·) ∧
    files fs root ⟨.text b, patterns.map .text⟩ = .ok (found.map root.below) ∧
    ∀ names, names ∈ found ↔
      (∃ bytes time, fs.node? (r ++ names) = some (.file bytes time)) ∧ ¬ d <+: r ++ names ∧
        ∃ s ∈ patterns, ¬ Glob.IsForDirectories s ∧ Glob.Matches (Path.ofString s).parts names := by
  have hdirectory : buildDirectory fs root (.text b) = .ok (.absolute d) := by
    rw [buildDirectory, h.sound.resolve_of_leadsTo hbuild]
    rfl
  have hpatterns : ∀ pattern ∈ patterns.map JsonString.text,
      IsPattern pattern ∧ NamesEntries pattern := by
    refine List.forall_mem_map.mpr fun s hs => ⟨?_, (hplain s hs).names⟩
    intro t ht
    cases ht
    exact ⟨_, (hplain s hs).ofText_eq⟩
  let config : Config := ⟨.text b, patterns.map .text⟩
  obtain ⟨found, hfound, hrun, hmem⟩ :=
    files_eq_ok h hshallow hroot (show ∀ s ∈ config.sources, _ from hpatterns) hdirectory
  refine ⟨found, hfound, hrun, fun names => ?_⟩
  rw [hmem, IsOutside, Path.behind?_eq_none_iff]
  constructor
  · rintro ⟨⟨pattern, hpattern, hselected⟩, ⟨bytes, time, hfile⟩, hout⟩
    obtain ⟨s, hs, rfl⟩ := List.mem_map.mp hpattern
    exact ⟨⟨bytes, time, hfile⟩, hout, s, hs, (isSelected_iff h (hplain s hs) hfile).mp hselected⟩
  · rintro ⟨⟨bytes, time, hfile⟩, hout, s, hs, hmatches⟩
    exact ⟨⟨_, List.mem_map_of_mem hs, (isSelected_iff h (hplain s hs) hfile).mpr hmatches⟩,
      ⟨bytes, time, hfile⟩, hout⟩

end Tree

/-! Examples. -/

/-- What is told of all nodes is true of the tree. -/
theorem isTree_of_nodes (hworking : fs.workingDirectory = r) (hroot : fs.IsDirectoryAt r)
    (hnodes : ∀ e ∈ fs.nodes, fs.IsDirectoryAt e.1.dropLast ∧ IsEntryName (e.1.getLastD "") ∧
      (Path.absolute e.1).hasNull = false ∧ ∀ target, e.2 ≠ .link target) :
    IsTree fs r where
  sound := isSound_of_nodes (hworking ▸ hroot) fun e he => ⟨(hnodes e he).1, (hnodes e he).2.1⟩
  root := hroot
  links q _ := hasNoLinks_of_nodes (fun e he => (hnodes e he).2.2.2) q
  null q n hn := by
    by_cases hq : q = []
    · rw [hq]
      rfl
    · exact (hnodes _ (mem_nodes hn hq)).2.2.1

/-- Two directories, one in the other, and a build directory beside them. -/
def nestedFiles : FileSystem where
  nodes := [(["w"], .directory 0), (["w", "a"], .directory 0), (["w", "a", "b"], .directory 0),
    (["w", "a", "b", "x.graphql"], .file [] 0), (["w", "a", "y.txt"], .file [] 0),
    (["w", "build"], .directory 0), (["w", "build", "z.graphql"], .file [] 0)]
  workingDirectory := ["w"]
  now := 1

/-- One file. -/
def loneFile : FileSystem where
  nodes := [(["w"], .directory 0), (["w", "f"], .file [] 0)]
  workingDirectory := ["w"]
  now := 1

end Sources

end GraphQLDoc
