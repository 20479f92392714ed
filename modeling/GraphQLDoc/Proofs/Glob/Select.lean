import GraphQLDoc.Glob.Select
import GraphQLDoc.Proofs.FileSystem.Below

/-!
What patterns select. Below a directory where there are no links, components select the names that go
over directories to something that is there. So nothing else is selected when files and directories
are made, as long as what was made is not among what the names go over.
-/
namespace GraphQLDoc

open FileSystem

@[simp] theorem Path.child_below (p : Path) (names : List String) (name : String) :
    (p.below names).child name = p.below (names ++ [name]) := by
  rw [below, child, below, List.append_assoc]

namespace FileSystem

variable {fs gs : FileSystem} {r q q' names : List String} {n : FileNode} {followLast : Bool}

theorem IsDirectoryAt.exists_node (h : fs.IsDirectoryAt q) : ∃ n, fs.node? q = some n :=
  h.elim fun _ htime => ⟨_, htime⟩

/-- The paths of the directories below a place leave room for a name. -/
def HasRoom (fs : FileSystem) (root : Path) (r : List String) : Prop :=
  ∀ names, fs.IsDirectoryAt (r ++ names) →
    (root.below names).text.utf8ByteSize + maxNameBytes < maxPathBytes

/-- A name in a directory makes a path that is walked. -/
theorem HasRoom.refusal?_concat {root : Path} (h : fs.HasRoom root r) {s : String}
    (hq : fs.IsDirectoryAt (r ++ q)) (hs : s.utf8ByteSize ≤ maxNameBytes)
    (hnull : (root.below (q ++ [s])).hasNull = false) :
    refusal? (root.below (q ++ [s])) = none := by
  have hsize := h q hq
  have hle := Path.size_text_concat_le root q s
  exact refusal?_eq_none.mpr ⟨hnull, by omega⟩

/-- A directory with nothing but files and directories below it. -/
structure IsTree (fs : FileSystem) (r : List String) : Prop where
  sound : fs.IsSound
  root : fs.IsDirectoryAt r
  links : fs.HasNoLinksBelow r
  /-- No name holds a null character. -/
  null : ∀ q n, fs.node? q = some n → (Path.absolute q).hasNull = false

namespace IsTree

theorem not_isLink (h : IsTree fs r) (names : List String) : ¬ fs.IsLink (r ++ names) := by
  by_cases hnil : names = []
  · rw [hnil, List.append_nil]
    exact h.root.not_isLink
  · exact h.links _ ⟨names, hnil, rfl⟩

/-! Paths that lead to the directory, and names behind them. -/

variable {root : Path} (h : IsTree fs r)

include h in
theorem leadsTo (hroot : fs.LeadsTo root r) (hdots : ".." ∉ names)
    (hnull : (root.below names).hasNull = false) : fs.LeadsTo (root.below names) (r ++ names) :=
  hroot.below (fun name hname hdd => hdots (hdd ▸ hname)) (h.links.areLinkFree names) hnull

variable (hroom : fs.HasRoom root r)
include h hroom

/-- The directory is where its own path leads. -/
theorem isDirectory (habsolute : root = .absolute r) : fs.IsDirectory root r := by
  obtain ⟨time, htime⟩ := h.root
  have hnode : fs.node? ([] ++ r) = some (.directory time) := htime
  have hsize := hroom [] (by rw [List.append_nil]; exact h.root)
  rw [Path.below_nil] at hsize
  subst habsolute
  have hasked : refusal? (.absolute r) = none :=
    refusal?_eq_none.mpr ⟨h.null r _ htime, by omega⟩
  refine ⟨time, ?_⟩
  rw [find, hasked]
  exact walkFrom_node h.sound hnode fun target hlink => by cases hlink

variable (hroot : fs.IsDirectory root r)
include hroot

theorem find_node (hn : fs.node? (r ++ names) = some n) (hlast : names ≠ [] ∨ followLast = true) :
    fs.find followLast (root.below names) = .ok (.node (r ++ names) n) := by
  have hlink (target : String) : n ≠ .link target := by
    rintro rfl
    exact h.not_isLink names ⟨target, hn⟩
  obtain ⟨time, hfind⟩ := id hroot
  cases names using List.reverseRecOn with
  | nil =>
    obtain rfl := hlast.resolve_left (not_not.mpr rfl)
    rw [List.append_nil] at hn ⊢
    have htime : fs.node? r = some (.directory time) := find_isIn hfind
    rw [Path.below_nil, hfind, Option.some.inj (hn.symm.trans htime)]
  | append_singleton front last =>
    refine find_below followLast hroot (by simp) ?_ fun _ => walkFrom_node h.sound hn hlink
    have hnull := h.null _ n hn
    simp only [Path.hasNull, Path.absolute, List.any_append, Bool.or_eq_false_iff] at hnull
    have hn' := hn
    rw [← List.append_assoc] at hn'
    refine hroom.refusal?_concat (h.sound.parent _ _ _ hn') (h.sound.name _ _ _ hn').size ?_
    simp only [Path.hasNull, Path.below, List.any_append, Bool.or_eq_false_iff]
    exact ⟨(find_leadsTo hfind (.inl rfl)).1, hnull.2⟩

/-- A question about a name in a directory is answered. -/
theorem ask_concat {q : List String} {s : String} (hq : fs.IsDirectoryAt (r ++ q))
    (hs : IsEntryName s) {α : Type} (answer : α) :
    fs.ask (root.below (q ++ [s])) answer = .ok answer := by
  obtain ⟨time, hfind⟩ := hroot
  have hnames (name : String) (hname : name ∈ q ++ [s]) : IsEntryName name := by
    rcases List.mem_append.mp hname with hname | hname
    · exact hq.elim fun _ hn => h.sound.isEntryName hn (List.mem_append_right r hname)
    · exact List.mem_singleton.mp hname ▸ hs
  have hsize := hroom q hq
  have hle := Path.size_text_concat_le root q s
  have hs := hs.size
  have hshort := (h.sound.hasShortNames hfind).below (fun name hname => (hnames name hname).dots)
    (find_leadsTo hfind (.inl rfl)) (h.links.areLinkFree _) (by omega)
    fun name hname => (hnames name hname).size
  exact ask_eq hshort.stat_ne answer

/-- The entries of a directory are what stands in it. -/
theorem exists_entries (hq : fs.IsDirectoryAt (r ++ names)) :
    ∃ es, fs.entries (root.below names) = .ok es ∧
      ∀ s n, (s, n) ∈ es ↔ fs.node? (r ++ (names ++ [s])) = some n := by
  obtain ⟨time, htime⟩ := hq
  refine ⟨_, by rw [FileSystem.entries, h.find_node hroom hroot htime (.inr rfl)], fun s n => ?_⟩
  rw [List.mem_filterMap, ← List.append_assoc]
  constructor
  · rintro ⟨⟨q, m⟩, -, hentry⟩
    dsimp only at hentry
    split at hentry
    · rename_i hfront
      obtain ⟨last, hlast, hentry⟩ := Option.bind_eq_some_iff.mp hentry
      obtain ⟨n', hn, hentry⟩ := Option.bind_eq_some_iff.mp hentry
      cases hentry
      have hq : q = r ++ names ++ [s] := by
        rw [← hfront]
        exact (List.dropLast_append_getLast? s hlast).symm
      rwa [← hq]
    · cases hentry
  · intro hn
    refine ⟨_, mem_nodes hn (by simp), ?_⟩
    dsimp only
    rw [if_pos List.dropLast_concat, List.getLast?_concat, hn]
    rfl

variable (hdots : ".." ∉ names)
include hdots

/-- A place is where the names in front of it lead. -/
theorem find_iff (hlast : names ≠ [] ∨ followLast = true)
    (hend : followLast = true ∨ ∀ target, n ≠ .link target) :
    fs.find followLast (root.below names) = .ok (.node q n) ↔
      q = r ++ names ∧ fs.node? (r ++ names) = some n := by
  constructor
  · intro hfind
    have hisEnd : followLast = true ∨ (Found.node q n).IsEnd := by
      refine hend.imp_right fun hlink => ?_
      cases n with
      | link target => exact absurd rfl (hlink target)
      | file => trivial
      | directory => trivial
    have hleads := find_leadsTo hfind hisEnd
    obtain ⟨time, hdirectory⟩ := hroot
    obtain rfl : q = r ++ names :=
      hleads.unique (h.leadsTo (find_leadsTo hdirectory (.inl rfl)) hdots hleads.1)
    exact ⟨rfl, find_isIn hfind⟩
  · rintro ⟨rfl, hn⟩
    exact h.find_node hroom hroot hn hlast

theorem hasPath_iff : fs.hasPath (root.below names) = true ↔
    ∃ n, fs.node? (r ++ names) = some n := by
  constructor
  · intro hpath
    unfold hasPath stat at hpath
    cases hfind : fs.find true (root.below names) with
    | error e => simp [hfind] at hpath
    | ok found =>
      cases found with
      | missing parent name => simp [hfind] at hpath
      | node q n => exact ⟨n, ((h.find_iff hroom hroot hdots (.inr rfl) (.inl rfl)).mp hfind).2⟩
  · rintro ⟨n, hn⟩
    rw [hasPath, stat, h.find_node hroom hroot hn (.inr rfl)]

theorem isFile_iff : fs.isFile (root.below names) = true ↔
    ∃ bytes time, fs.node? (r ++ names) = some (.file bytes time) := by
  constructor
  · intro hfile
    unfold isFile stat at hfile
    cases hfind : fs.find true (root.below names) with
    | error e => simp [hfind] at hfile
    | ok found =>
      cases found with
      | missing parent name => simp [hfind] at hfile
      | node q n =>
        rw [hfind] at hfile
        cases n with
        | file bytes time =>
          exact ⟨bytes, time, ((h.find_iff hroom hroot hdots (.inr rfl) (.inl rfl)).mp hfind).2⟩
        | directory time => cases hfile
        | link target => cases hfile
  · rintro ⟨bytes, time, hn⟩
    rw [isFile, stat, h.find_node hroom hroot hn (.inr rfl)]

theorem isDirectory_iff_at : fs.isDirectory (root.below names) = true ↔
    fs.IsDirectoryAt (r ++ names) := by
  rw [isDirectory_iff]
  constructor
  · rintro ⟨b, time, hfind⟩
    exact ⟨time, ((h.find_iff hroom hroot hdots (.inr rfl) (.inl rfl)).mp hfind).2⟩
  · rintro ⟨time, hn⟩
    exact ⟨_, time, h.find_node hroom hroot hn (.inr rfl)⟩

end IsTree

end FileSystem

namespace Glob

variable {fs gs : FileSystem} {r q names : List String} {cs rest : List Component} {p : Path}

/-- The directories below a place are not so deep that two stars stop on the way to them, and their
paths leave room for a name. -/
structure IsShallow [Machine] (fs : FileSystem) (root : Path) (r : List String) : Prop where
  calls : ∀ names, fs.IsDirectoryAt (r ++ names) → names.length ≤ Machine.calls
  room : fs.HasRoom root r

/-- What is told of all nodes is true of the directories below a place. -/
theorem isShallow_of_nodes [Machine] {root : Path} (hne : r ≠ []) (hnodes : ∀ e ∈ fs.nodes, r <+: e.1 →
      (e.1.drop r.length).length ≤ Machine.calls ∧
        (root.below (e.1.drop r.length)).text.utf8ByteSize + maxNameBytes < maxPathBytes) :
    IsShallow fs root r := by
  have hall (names : List String) (hnames : fs.IsDirectoryAt (r ++ names)) :
      names.length ≤ Machine.calls ∧
        (root.below names).text.utf8ByteSize + maxNameBytes < maxPathBytes := by
    obtain ⟨time, htime⟩ := hnames
    simpa using hnodes _ (mem_nodes htime (by simp [hne])) (List.prefix_append r names)
  exact ⟨fun names hnames => (hall names hnames).1, fun names hnames => (hall names hnames).2⟩

/-- Something is there to go on with: a directory, unless nothing more is asked for. -/
def IsNext (fs : FileSystem) (rest : List Component) (q : List String) : Prop :=
  (∃ n, fs.node? q = some n) ∧ (rest ≠ [] → fs.IsDirectoryAt q)

/-- The names that components select behind a place. -/
inductive Selects (fs : FileSystem) : List Component → List String → List String → Prop where
  | done (q : List String) : Selects fs [] q []
  | nothing (rest : List Component) (q : List String) : Selects fs (.nothing :: rest) q []
  | name {s : String} {rest : List Component} {q names : List String}
      (hnext : IsNext fs rest (q ++ [s])) (h : Selects fs rest (q ++ [s]) names) :
      Selects fs (.name s :: rest) q (s :: names)
  | wildcard {ws : List Wildcard} {s : String} {rest : List Component} {q names : List String}
      (hmatch : Wildcard.matchesAll ws s.toList = true) (hnext : IsNext fs rest (q ++ [s]))
      (h : Selects fs rest (q ++ [s]) names) : Selects fs (.wildcard ws :: rest) q (s :: names)
  | directories {front : List String} {rest : List Component} {q names : List String}
      (hfront : ∀ before, before ≠ [] → before <+: front → fs.IsDirectoryAt (q ++ before))
      (h : Selects fs rest (q ++ front) names) : Selects fs (.directories :: rest) q (front ++ names)

@[simp] theorem selectIf_ok (answer : Bool) (selected : Unit → List (Except FileError Path)) :
    selectIf (.ok answer) selected = if answer = true then selected () else [] := by
  cases answer <;> rfl

/-- A name that is too long ends the selection in any directory. -/
theorem selectFrom_tooLong [Machine] {p : Path} {s : String} (hp : fs.isDirectory p = true) (hdots : s ≠ "..")
    (hnull : '\x00' ∉ s.toList) (hlong : maxNameBytes < s.utf8ByteSize) :
    selectFrom fs (.name s :: rest) p = [.error .nameTooLong] := by
  obtain ⟨b, hb⟩ := isDirectory_iff.mp hp
  rw [selectFrom, ask_eq_error.mpr ⟨IsDirectory.stat_child hb hdots hnull hlong, rfl⟩, selectIf]

theorem component_nameOfSize (n : Nat) : component (nameOfSize n) = .ok (.name (nameOfSize n)) := by
  have hstars : hasTwoStars (List.replicate n 'x') = false := by
    induction n with
    | zero => rfl
    | succ n ih => simpa [List.replicate_succ, hasTwoStars] using ih
  have hwildcard : hasWildcard (List.replicate n 'x') = false := by simp [hasWildcard]
  have hne : nameOfSize n ≠ "**" := fun heq =>
    notMem_nameOfSize (by decide : '*' ≠ 'x') n (heq ▸ by decide)
  simp only [component, toList_nameOfSize, if_neg hne, hstars, hwildcard, Bool.false_eq_true, if_false]

section Tree

variable {root : Path} (h : IsTree fs r)
include h

/-- What is there goes up nowhere. -/
theorem dots_notMem (hq : ∃ n, fs.node? (r ++ q) = some n) : ".." ∉ q := by
  obtain ⟨n, hn⟩ := hq
  exact fun hmem => (h.sound.isEntryName hn (List.mem_append_right r hmem)).dots rfl

variable (hroom : fs.HasRoom root r) (hroot : fs.IsDirectory root r)
include hroom hroot

/-- What comes of the entries of a directory comes of what stands in it. -/
theorem mem_fromEntries (hq : fs.IsDirectoryAt (r ++ q)) {o : Except FileError Path}
    {selected : String → FileNode → List (Except FileError Path)} :
    o ∈ fromEntries fs (root.below q) selected ↔
      ∃ s n, fs.node? (r ++ (q ++ [s])) = some n ∧ o ∈ selected s n := by
  obtain ⟨es, hes, hmem⟩ := h.exists_entries hroom hroot hq
  rw [fromEntries, hes]
  simp only [List.mem_flatMap, Prod.exists, hmem]

theorem mem_below (hq : fs.IsDirectoryAt (r ++ q)) {calls : Nat}
    (hcalls : ∀ front, fs.IsDirectoryAt (r ++ (q ++ front)) → front.length < calls)
    {o : Except FileError Path} :
    o ∈ below fs calls (root.below q) ↔ ∃ front, o = .ok (root.below (q ++ front)) ∧
      ∀ before, before <+: front → fs.IsDirectoryAt (r ++ (q ++ before)) := by
  induction calls generalizing q with
  | zero => exact absurd (hcalls [] (by rwa [List.append_nil])) (Nat.not_lt_zero _)
  | succ calls ih =>
    have hnext {s : String} (hs : fs.IsDirectoryAt (r ++ (q ++ [s]))) :=
      ih hs fun front hfront => Nat.lt_of_succ_lt_succ
        (hcalls (s :: front) (by rwa [List.append_cons]))
    rw [below, List.mem_cons, mem_fromEntries h hroom hroot hq]
    constructor
    · rintro (rfl | ⟨s, n, hn, hp⟩)
      · refine ⟨[], by rw [List.append_nil], fun before hbefore => ?_⟩
        rwa [List.prefix_nil.mp hbefore, List.append_nil]
      · cases n with
        | directory time =>
          dsimp only at hp
          rw [Path.child_below] at hp
          obtain ⟨front, rfl, hfront⟩ := (hnext ⟨time, hn⟩).mp hp
          refine ⟨s :: front, by rw [List.append_assoc, List.singleton_append], fun before hbefore => ?_⟩
          cases before with
          | nil => rwa [List.append_nil]
          | cons first more =>
            obtain ⟨rfl, hmore⟩ := List.cons_prefix_cons.mp hbefore
            rw [List.append_cons]
            exact hfront more hmore
        | file | link => cases hp
    · rintro ⟨front, rfl, hfront⟩
      cases front with
      | nil => exact .inl (by rw [List.append_nil])
      | cons s front =>
        have hs := hfront [s] (List.cons_prefix_cons.mpr ⟨rfl, List.nil_prefix⟩)
        obtain ⟨time, htime⟩ := id hs
        refine .inr ⟨s, .directory time, htime, ?_⟩
        dsimp only
        rw [Path.child_below]
        refine (hnext hs).mpr ⟨front, by rw [← List.append_cons], fun before hbefore => ?_⟩
        rw [← List.append_cons]
        exact hfront _ (List.cons_prefix_cons.mpr ⟨rfl, hbefore⟩)

/-- A component that is a name goes on if something is there to go on with. -/
theorem mem_selectIf_name (hq : fs.IsDirectoryAt (r ++ q)) {s : String} (hs : IsEntryName s)
    {o : Except FileError Path} {selected : List (Except FileError Path)} :
    (o ∈ selectIf (fs.ask (root.below (q ++ [s])) (if rest.isEmpty
        then fs.hasPath (root.below (q ++ [s])) else fs.isDirectory (root.below (q ++ [s]))))
      fun _ => selected) ↔ IsNext fs rest (r ++ (q ++ [s])) ∧ o ∈ selected := by
  have hdots : ".." ∉ q ++ [s] := by
    simpa using ⟨dots_notMem h hq.exists_node, Ne.symm hs.dots⟩
  have hisNext : (if rest.isEmpty then fs.hasPath (root.below (q ++ [s])) else
      fs.isDirectory (root.below (q ++ [s]))) = true ↔ IsNext fs rest (r ++ (q ++ [s])) := by
    cases rest with
    | nil => simp [IsNext, h.hasPath_iff hroom hroot hdots]
    | cons c rest =>
      simpa [IsNext, h.isDirectory_iff_at hroom hroot hdots] using IsDirectoryAt.exists_node
  rw [h.ask_concat hroom hroot hq hs, selectIf_ok, List.mem_ite_nil_right, hisNext]

omit hroom hroot in
/-- So does a wildcard with a name that is there, if it matches. -/
theorem mem_selectIf_wildcard {n : FileNode} (hn : fs.node? (r ++ q) = some n) (p : Path)
    {o : Except FileError Path} {selected : List (Except FileError Path)} {isMatch : Bool} :
    (o ∈ selectIf (if rest.isEmpty then .ok true else leadsToDirectory fs p n)
      fun _ => if isMatch then selected else []) ↔
      isMatch = true ∧ IsNext fs rest (r ++ q) ∧ o ∈ selected := by
  cases rest with
  | nil => simp [IsNext, hn]
  | cons c rest =>
    cases n with
    | directory time => simp [IsNext, IsDirectoryAt, hn, leadsToDirectory]
    | file bytes time => simp [IsNext, IsDirectoryAt, hn, leadsToDirectory]
    | link target => exact absurd ⟨target, hn⟩ (h.not_isLink q)

variable [Machine] (hshallow : IsShallow fs root r)
include hshallow
omit hroom

theorem mem_directoriesBelow (hq : fs.IsDirectoryAt (r ++ q)) {o : Except FileError Path} :
    o ∈ directoriesBelow fs (root.below q) ↔ ∃ front, o = .ok (root.below (q ++ front)) ∧
      ∀ before, before <+: front → fs.IsDirectoryAt (r ++ (q ++ before)) := by
  refine mem_below h hshallow.room hroot hq fun front hfront => ?_
  have hlength := hshallow.calls _ hfront
  rw [List.length_append] at hlength
  omega

/-- What components select behind names below a directory without links: each question is answered. -/
theorem mem_selectFrom {o : Except FileError Path} (hcs : ∀ s, .name s ∈ cs → IsEntryName s)
    (hq : IsNext fs cs (r ++ q)) :
    o ∈ selectFrom fs cs (root.below q) ↔
      ∃ names, o = .ok (root.below (q ++ names)) ∧ Selects fs cs (r ++ q) names := by
  induction cs generalizing q with
  | nil =>
    rw [selectFrom, List.mem_singleton]
    constructor
    · rintro rfl
      exact ⟨[], by rw [List.append_nil], .done _⟩
    · rintro ⟨names, rfl, hselects⟩
      cases hselects
      rw [List.append_nil]
  | cons c rest ih =>
    have hdirectory := hq.2 (List.cons_ne_nil c rest)
    have hrest (s : String) (hs : .name s ∈ rest) : IsEntryName s := hcs s (List.mem_cons_of_mem c hs)
    have hnext {s : String} (hs : IsNext fs rest (r ++ (q ++ [s]))) :
        o ∈ selectFrom fs rest (root.below (q ++ [s])) ↔
          ∃ names, o = .ok (root.below (q ++ s :: names)) ∧ Selects fs rest (r ++ q ++ [s]) names := by
      rw [ih hrest hs, ← List.append_assoc]
      exact exists_congr fun names => by rw [← List.append_cons]
    cases c with
    | nothing =>
      rw [selectFrom, List.mem_singleton]
      constructor
      · rintro rfl
        exact ⟨[], by rw [List.append_nil], .nothing rest _⟩
      · rintro ⟨names, rfl, hselects⟩
        cases hselects
        rw [List.append_nil]
    | name s =>
      rw [selectFrom, Path.child_below,
        mem_selectIf_name h hshallow.room hroot hdirectory (hcs s List.mem_cons_self),
        and_congr_right hnext]
      constructor
      · rintro ⟨hthere, names, rfl, hselects⟩
        rw [← List.append_assoc] at hthere
        exact ⟨s :: names, rfl, .name hthere hselects⟩
      · rintro ⟨names, rfl, hselects⟩
        cases hselects with
        | name hthere hselects =>
          rw [List.append_assoc] at hthere
          exact ⟨hthere, _, rfl, hselects⟩
    | wildcard ws =>
      rw [selectFrom, mem_fromEntries h hshallow.room hroot hdirectory]
      constructor
      · rintro ⟨s, n, hn, ho⟩
        rw [Path.child_below, mem_selectIf_wildcard h hn, and_congr_right hnext] at ho
        obtain ⟨hmatch, hthere, names, rfl, hselects⟩ := ho
        rw [← List.append_assoc] at hthere
        exact ⟨s :: names, rfl, .wildcard hmatch hthere hselects⟩
      · rintro ⟨names, rfl, hselects⟩
        cases hselects with
        | @wildcard _ s _ _ names hmatch hthere hselects =>
          rw [List.append_assoc] at hthere
          obtain ⟨n, hn⟩ := hthere.1
          refine ⟨s, n, hn, ?_⟩
          rw [Path.child_below, mem_selectIf_wildcard h hn, and_congr_right hnext]
          exact ⟨hmatch, hthere, names, rfl, hselects⟩
    | directories =>
      have hgo {front : List String}
          (hfront : ∀ before, before <+: front → fs.IsDirectoryAt (r ++ (q ++ before))) :
          IsNext fs rest (r ++ (q ++ front)) := by
        have hlast := hfront front (List.prefix_refl _)
        exact ⟨hlast.exists_node, fun _ => hlast⟩
      rw [selectFrom, List.mem_flatMap]
      constructor
      · rintro ⟨next, hbelow, ho⟩
        obtain ⟨front, rfl, hfront⟩ := (mem_directoriesBelow h hroot hshallow hdirectory).mp hbelow
        obtain ⟨names, rfl, hselects⟩ := (ih hrest (hgo hfront)).mp ho
        simp only [← List.append_assoc] at hfront hselects
        exact ⟨front ++ names, by rw [List.append_assoc],
          .directories (fun before _ => hfront before) hselects⟩
      · rintro ⟨names, rfl, hselects⟩
        cases hselects with
        | @directories front _ _ names hfront hselects =>
          have hfront' (before : List String) (hbefore : before <+: front) :
              fs.IsDirectoryAt (r ++ (q ++ before)) := by
            by_cases hnil : before = []
            · rwa [hnil, List.append_nil]
            · rw [← List.append_assoc]
              exact hfront before hnil hbefore
          rw [List.append_assoc] at hselects
          refine ⟨_, (mem_directoriesBelow h hroot hshallow hdirectory).mpr ⟨front, rfl, hfront'⟩, ?_⟩
          exact (ih hrest (hgo hfront')).mpr ⟨names, by rw [List.append_assoc], hselects⟩

end Tree

/-- What is selected is there. -/
theorem Selects.exists_node (h : Selects fs cs q names) (hq : ∃ n, fs.node? q = some n) :
    ∃ n, fs.node? (q ++ names) = some n := by
  induction h with
  | done | nothing => simpa using hq
  | name hnext _ ih | wildcard _ hnext _ ih =>
    rw [List.append_cons]
    exact ih hnext.1
  | @directories front rest q names hfront _ ih =>
    rw [← List.append_assoc]
    refine ih ?_
    by_cases hnil : front = []
    · simpa [hnil] using hq
    · exact (hfront front hnil (List.prefix_refl _)).elim fun _ htime => ⟨_, htime⟩

/-! What is selected when there is more. -/

section Grows

variable (hgrows : Grows fs gs)
include hgrows

theorem exists_node_of_grows (h : ∃ n, fs.node? q = some n) : ∃ n, gs.node? q = some n := by
  obtain ⟨n, hn⟩ := h
  have hkind := hgrows.node q n hn
  generalize gs.node? q = m at hkind
  cases hkind <;> exact ⟨_, rfl⟩

/-- A directory that was there was a directory. -/
theorem isDirectoryAt_of_grows (h : ∃ n, fs.node? q = some n) (hq : gs.IsDirectoryAt q) :
    fs.IsDirectoryAt q := by
  obtain ⟨n, hn⟩ := h
  obtain ⟨time, htime⟩ := hq
  have hkind := hgrows.node q n hn
  rw [htime] at hkind
  cases hkind
  exact ⟨_, hn⟩

theorem IsShallow.of_grows [Machine] {root : Path} (h : IsShallow gs root r) :
    IsShallow fs root r where
  calls names hnames := h.calls names (hgrows.isDirectoryAt hnames)
  room names hnames := h.room names (hgrows.isDirectoryAt hnames)

theorem IsNext.mono (h : IsNext fs rest q) : IsNext gs rest q :=
  ⟨exists_node_of_grows hgrows h.1, fun hne => hgrows.isDirectoryAt (h.2 hne)⟩

theorem IsNext.of_cons {s : String} (h : IsNext gs rest (q ++ [s]))
    (hold : ∀ before, before <+: s :: names → ∃ n, fs.node? (q ++ before) = some n) :
    IsNext fs rest (q ++ [s]) ∧
      ∀ before, before <+: names → ∃ n, fs.node? (q ++ [s] ++ before) = some n := by
  have hs := hold [s] (List.cons_prefix_cons.mpr ⟨rfl, List.nil_prefix⟩)
  refine ⟨⟨hs, fun hne => isDirectoryAt_of_grows hgrows hs (h.2 hne)⟩, fun before hbefore => ?_⟩
  rw [← List.append_cons]
  exact hold _ (List.cons_prefix_cons.mpr ⟨rfl, hbefore⟩)

theorem Selects.mono (h : Selects fs cs q names) : Selects gs cs q names := by
  induction h with
  | done q => exact .done q
  | nothing rest q => exact .nothing rest q
  | name hnext _ ih => exact .name (hnext.mono hgrows) ih
  | wildcard hmatch hnext _ ih => exact .wildcard hmatch (hnext.mono hgrows) ih
  | directories hfront _ ih =>
    exact .directories (fun before hne hbefore => hgrows.isDirectoryAt (hfront before hne hbefore)) ih

/-- What goes over nothing new was selected before. -/
theorem Selects.of_grows (h : Selects gs cs q names)
    (hold : ∀ before, before <+: names → ∃ n, fs.node? (q ++ before) = some n) :
    Selects fs cs q names := by
  induction h with
  | done q => exact .done q
  | nothing rest q => exact .nothing rest q
  | name hnext _ ih =>
    obtain ⟨hnext, htail⟩ := hnext.of_cons hgrows hold
    exact .name hnext (ih htail)
  | wildcard hmatch hnext _ ih =>
    obtain ⟨hnext, htail⟩ := hnext.of_cons hgrows hold
    exact .wildcard hmatch hnext (ih htail)
  | @directories front rest q names hfront _ ih =>
    refine .directories (fun before hne hbefore => ?_) (ih fun before hbefore => ?_)
    · exact isDirectoryAt_of_grows hgrows (hold before (hbefore.trans (List.prefix_append _ _)))
        (hfront before hne hbefore)
    · rw [List.append_assoc]
      exact hold _ ((List.prefix_append_right_inj front).mpr hbefore)

end Grows

end Glob

end GraphQLDoc
