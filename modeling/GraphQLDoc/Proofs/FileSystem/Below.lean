import GraphQLDoc.Proofs.FileSystem.Reached
import Mathlib.Algebra.Ring.Nat

/-!
Below a directory. Names behind a path that leads to a directory are gone over one by one, and
directories can be made there as long as no file is in the way.
-/
namespace GraphQLDoc

/-- The bytes of components with slashes between them. -/
theorem size_intercalate (parts : List String) :
    ("/".intercalate parts).utf8ByteSize = (parts.map fun part => part.utf8ByteSize + 1).sum - 1 := by
  induction parts with
  | nil => rfl
  | cons part rest ih =>
    cases rest with
    | nil => simp
    | cons next rest =>
      rw [String.intercalate_cons_cons, String.utf8ByteSize_append, String.utf8ByteSize_append, ih]
      have hslash : "/".utf8ByteSize = 1 := rfl
      simp only [List.map_cons, List.sum_cons]
      omega

namespace Path

variable {p : Path} {front rest : List String}

/-- Names behind a path. -/
def below (p : Path) (names : List String) : Path := ⟨p.anchor, p.parts ++ names⟩

theorem below_nil (p : Path) : p.below [] = p := by
  rw [below, List.append_nil]

theorem hasNull_eq_false_iff : p.hasNull = false ↔ ∀ part ∈ p.parts, '\x00' ∉ part.toList := by
  simp [hasNull]

theorem hasNull_of_below (h : (p.below (front ++ rest)).hasNull = false) :
    (p.below front).hasNull = false := by
  simp only [hasNull, below, List.any_append, Bool.or_eq_false_iff] at h ⊢
  exact ⟨h.1, h.2.1⟩

theorem parent_below_concat (p : Path) (front : List String) (last : String) :
    (p.below (front ++ [last])).parent = p.below front := by
  rw [below, parent, ← List.append_assoc, List.dropLast_concat, below]

/-- A path is not longer than one behind it, but for the dot that stands for no component. -/
theorem size_text_le :
    (p.below front).text.utf8ByteSize ≤ max 1 (p.below (front ++ rest)).text.utf8ByteSize := by
  unfold text
  split
  · exact Nat.le_max_left _ _
  · rename_i hfront
    have hrest : ((p.below (front ++ rest)).parts.isEmpty &&
        !(p.below (front ++ rest)).isAbsolute) = false := by
      simp [below, isAbsolute] at hfront ⊢
      tauto
    rw [hrest]
    simp only [below, String.utf8ByteSize_append, size_intercalate, List.map_append,
      List.sum_append, Bool.false_eq_true, if_false]
    omega

theorem size_text_concat_le (p : Path) (front : List String) (name : String) :
    (p.below (front ++ [name])).text.utf8ByteSize ≤
      (p.below front).text.utf8ByteSize + 1 + name.utf8ByteSize := by
  have hslashes (parts : List String) := size_intercalate parts
  rw [text, if_neg (by simp [below]), String.utf8ByteSize_append, hslashes, text]
  by_cases hfront : ((p.below front).parts.isEmpty && !(p.below front).isAbsolute) = true
  · rw [if_pos hfront]
    simp [below, isAbsolute] at hfront
    simp [below, hfront]
  · rw [if_neg hfront, String.utf8ByteSize_append, hslashes]
    simp only [below, List.map_append, List.sum_append, List.map_cons, List.map_nil, List.sum_cons,
      List.sum_nil]
    omega

end Path

namespace FileSystem

/-- Behind a path that is refused are no others than such. -/
theorem refusal?_of_below {p : Path} {front rest : List String}
    (h : refusal? (p.below (front ++ rest)) = none) : refusal? (p.below front) = none := by
  obtain ⟨hnull, hsize⟩ := refusal?_eq_none.mp h
  have hle : (p.below front).text.utf8ByteSize ≤
      max 1 (p.below (front ++ rest)).text.utf8ByteSize := Path.size_text_le
  refine refusal?_eq_none.mpr ⟨Path.hasNull_of_below hnull, ?_⟩
  simp only [maxPathBytes] at hsize ⊢
  omega

variable {fs gs : FileSystem} {followLast : Bool}
  {follow follow' : List String → List String → Except FileError Found}

/-! Names. -/

/-- Names lead to what stands there. -/
theorem walkFrom_node (h : fs.IsSound) {place names : List String} {n : FileNode}
    (hn : fs.node? (place ++ names) = some n) (hlink : ∀ target, n ≠ .link target) :
    walkFrom fs followLast follow place names = .ok (.node (place ++ names) n) := by
  induction names generalizing place with
  | nil =>
    rw [List.append_nil] at hn ⊢
    rw [walkFrom, hn]
  | cons name names ih =>
    have hname := h.isEntryName hn (List.mem_append_right _ List.mem_cons_self)
    rw [walkFrom, if_neg hname.dots, if_neg (Nat.not_lt_of_le hname.size)]
    rw [List.append_cons] at hn
    by_cases hnil : names = []
    · subst hnil
      rw [List.append_nil] at hn
      simp only [hn]
      cases n with
      | file bytes time => rfl
      | directory time =>
        show walkFrom fs followLast follow (place ++ [name]) [] = _
        rw [walkFrom, hn]
      | link target => exact absurd rfl (hlink target)
    · obtain ⟨time, htime⟩ := h.front hnil hn
      simp only [htime]
      rw [ih hn, ← List.append_cons]

/-- What comes behind names that lead to a directory. -/
theorem walkFrom_front (h : fs.IsSound) {place front : List String} (last : String)
    (hfront : fs.IsDirectoryAt (place ++ front)) :
    walkFrom fs followLast follow place (front ++ [last]) =
      walkFrom fs followLast follow (place ++ front) [last] := by
  induction front generalizing place with
  | nil => rw [List.append_nil, List.nil_append]
  | cons name front ih =>
    obtain ⟨time, htime⟩ := hfront
    have hname := h.isEntryName htime (List.mem_append_right _ List.mem_cons_self)
    rw [List.append_cons] at htime
    have hnext : fs.IsDirectoryAt (place ++ [name]) := by
      by_cases hnil : front = []
      · rw [hnil, List.append_nil] at htime
        exact ⟨time, htime⟩
      · exact h.front hnil htime
    obtain ⟨time', htime'⟩ := hnext
    rw [List.cons_append, walkFrom, if_neg hname.dots, if_neg (Nat.not_lt_of_le hname.size)]
    simp only [htime']
    rw [List.append_cons place name front]
    exact ih ⟨time, htime⟩

/-- A name that a directory does not have. -/
theorem walkFrom_free (h : fs.IsSound) {place front : List String} {last : String}
    (hfront : fs.IsDirectoryAt (place ++ front)) (hlast : IsEntryName last)
    (hfree : fs.node? (place ++ (front ++ [last])) = none) :
    walkFrom fs followLast follow place (front ++ [last]) =
      .ok (.missing (place ++ front) last) := by
  rw [walkFrom_front h last hfront, walkFrom, if_neg hlast.dots,
    if_neg (Nat.not_lt_of_le hlast.size)]
  rw [← List.append_assoc] at hfree
  simp only [hfree, List.isEmpty_nil, if_true]

/-- Names behind one that is missing. -/
theorem walkFrom_lost {place front : List String} {last : String}
    (hplace : fs.IsDirectoryAt place) (hnames : ∀ name ∈ front, IsEntryName name)
    (hclear : ∀ before, before <+: front →
      fs.node? (place ++ before) = none ∨ fs.IsDirectoryAt (place ++ before))
    (hlost : ¬ fs.IsDirectoryAt (place ++ front)) :
    walkFrom fs followLast follow place (front ++ [last]) = .error .notFound := by
  induction front generalizing place with
  | nil =>
    rw [List.append_nil] at hlost
    exact absurd hplace hlost
  | cons name front ih =>
    obtain ⟨hname, hnames⟩ := List.forall_mem_cons.mp hnames
    rw [List.cons_append, walkFrom, if_neg hname.dots, if_neg (Nat.not_lt_of_le hname.size)]
    rcases hclear [name] ⟨front, rfl⟩ with hnone | hdirectory
    · simp only [hnone]
      cases front <;> rfl
    · obtain ⟨time, htime⟩ := hdirectory
      simp only [htime]
      refine ih ⟨time, htime⟩ hnames (fun before hbefore => ?_) (by rwa [← List.append_cons])
      rw [← List.append_cons]
      exact hclear _ (List.cons_prefix_cons.mpr ⟨rfl, hbefore⟩)

/-- What comes behind a path that leads to a directory. -/
theorem walkFrom_append {b names : List String} {time : Int} {r : Except FileError Found}
    (hnames : names ≠ []) (hend : ∀ follow, walkFrom fs followLast follow b names = r)
    (hfollow : ∀ place parts, follow place parts = .ok (.node b (.directory time)) →
      follow' place (parts ++ names) = r)
    {place parts : List String}
    (h : walkFrom fs true follow place parts = .ok (.node b (.directory time))) :
    walkFrom fs followLast follow' place (parts ++ names) = r := by
  fun_induction walkFrom fs true follow place parts with
  | case1 place n hn =>
    cases h
    exact hend _
  | case3 place rest ih =>
    rw [List.cons_append, walkFrom, if_pos rfl]
    exact ih h
  | case7 place part rest hdots hname next time' hnext ih =>
    rw [List.cons_append, walkFrom, if_neg hdots, if_neg hname]
    simp only [next] at hnext
    simp only [hnext]
    exact ih h
  | case8 place part rest hdots hname next bytes time' hnext hrest =>
    obtain ⟨-, hn⟩ := Found.node.inj (Except.ok.inj h)
    cases hn
  | case10 place part rest hdots hname next target hnext hlast => simp at hlast
  | case11 place part rest hdots hname next target hnext hlast p =>
    have hrest : (rest ++ names).isEmpty = false := by
      simp [List.isEmpty_eq_false_iff, hnames]
    rw [List.cons_append, walkFrom, if_neg hdots, if_neg hname]
    simp only [next] at hnext
    simp only [hnext, hrest, Bool.false_and, Bool.false_eq_true, if_false]
    rw [← List.append_assoc]
    exact hfollow _ _ h
  | _ => cases h

theorem walkWithin_append {b names : List String} {time : Int} {r : Except FileError Found}
    (hnames : names ≠ []) (hend : ∀ follow, walkFrom fs followLast follow b names = r)
    {links : Nat} {place parts : List String}
    (h : walkWithin fs true links place parts = .ok (.node b (.directory time))) :
    walkWithin fs followLast links place (parts ++ names) = r := by
  induction links generalizing place parts with
  | zero =>
    refine walkFrom_append hnames hend (fun _ _ hfollow => ?_) h
    exact nomatch (hfollow : Except.error FileError.tooManyLinks = .ok _)
  | succ links ih => exact walkFrom_append hnames hend (fun _ _ h => ih h) h

/-- A path leads to a directory. -/
def IsDirectory (fs : FileSystem) (p : Path) (b : List String) : Prop :=
  ∃ time, fs.find true p = .ok (.node b (.directory time))

theorem IsDirectory.isDirectoryAt {p : Path} {b : List String} (h : fs.IsDirectory p b) :
    fs.IsDirectoryAt b :=
  h.imp fun _ => find_isIn

theorem IsDirectory.grows {p : Path} {b : List String} (h : fs.IsDirectory p b)
    (hgrows : Grows fs gs) : gs.IsDirectory p b := by
  obtain ⟨time, hfind⟩ := h
  obtain ⟨n, hn, hnode⟩ := find_grows hgrows hfind
  have hkind := hgrows.node b _ (find_isIn hfind)
  rw [hnode] at hkind
  cases hkind
  exact ⟨_, hn⟩

theorem find_below (followLast : Bool) {p : Path} {b names : List String}
    {r : Except FileError Found} (hp : fs.IsDirectory p b) (hnames : names ≠ [])
    (hasked : refusal? (p.below names) = none)
    (hend : ∀ follow, walkFrom fs followLast follow b names = r) :
    fs.find followLast (p.below names) = r := by
  obtain ⟨time, hfind⟩ := hp
  unfold find at hfind ⊢
  rw [hasked]
  split at hfind
  · exact nomatch hfind
  · exact walkWithin_append hnames hend hfind

/-- Nothing is said about a name in a directory that is too long. -/
theorem IsDirectory.stat_child {p : Path} {b : List String} {name : String} (hp : fs.IsDirectory p b)
    (hdots : name ≠ "..") (hnull : '\x00' ∉ name.toList) (hlong : maxNameBytes < name.utf8ByteSize) :
    fs.stat (p.child name) = .error .nameTooLong := by
  have hchild : (p.child name).hasNull = false := by
    obtain ⟨time, hfind⟩ := hp
    have hfree := (refusal?_eq_none.mp (refusal?_of_find hfind)).1
    rw [Path.hasNull_eq_false_iff] at hfree ⊢
    exact List.forall_mem_append.mpr ⟨hfree, List.forall_mem_singleton.mpr hnull⟩
  have hfind : fs.find true (p.child name) = .error .nameTooLong := by
    by_cases hsize : maxPathBytes < (p.child name).text.utf8ByteSize
    · rw [find, refusal?, if_neg (by simp [hchild]), if_pos hsize]
    · have hasked := refusal?_eq_none.mpr ⟨hchild, Nat.le_of_not_lt hsize⟩
      refine find_below true hp (List.cons_ne_nil name []) hasked fun follow => ?_
      rw [walkFrom, if_neg hdots, if_pos hlong]
  rw [stat, hfind]

/-- What stands in front of names that are found is a directory. -/
theorem exists_walkFrom_front (h : fs.IsSound) {names : List String} (hnames : names ≠ [])
    (hfollow : ∀ place parts q n, fs.IsDirectoryAt place →
      follow place (parts ++ names) = .ok (.node q n) →
      ∃ b time, follow' place parts = .ok (.node b (.directory time)))
    {place parts q : List String} {n : FileNode} (hplace : fs.IsDirectoryAt place)
    (hwalk : walkFrom fs true follow place (parts ++ names) = .ok (.node q n)) :
    ∃ b time, walkFrom fs true follow' place parts = .ok (.node b (.directory time)) := by
  induction parts generalizing place with
  | nil =>
    obtain ⟨time, htime⟩ := hplace
    exact ⟨place, time, by rw [walkFrom, htime]⟩
  | cons part rest ih =>
    have hrest : (rest ++ names).isEmpty = false := by
      simp [List.isEmpty_eq_false_iff, hnames]
    rw [List.cons_append, walkFrom] at hwalk
    rw [walkFrom]
    by_cases hdots : part = ".."
    · rw [if_pos hdots] at hwalk ⊢
      exact ih (h.dropLast hplace) hwalk
    rw [if_neg hdots] at hwalk ⊢
    by_cases hname : maxNameBytes < part.utf8ByteSize
    · rw [if_pos hname] at hwalk
      cases hwalk
    rw [if_neg hname] at hwalk ⊢
    dsimp only at hwalk ⊢
    cases hnext : fs.node? (place ++ [part]) with
    | none => simp [hnext, hrest] at hwalk
    | some m =>
      rw [hnext] at hwalk
      cases m with
      | directory time => exact ih ⟨time, hnext⟩ hwalk
      | file bytes time => simp [hrest] at hwalk
      | link target =>
        simp only [hrest, Bool.not_true, Bool.and_false, Bool.false_eq_true, if_false,
          ← List.append_assoc] at hwalk ⊢
        refine hfollow _ _ _ _ ?_ hwalk
        split
        · exact isDirectoryAt_root fs
        · exact hplace

theorem exists_walkWithin_front (h : fs.IsSound) {names : List String} (hnames : names ≠ [])
    {links : Nat} {place parts q : List String} {n : FileNode} (hplace : fs.IsDirectoryAt place)
    (hwalk : walkWithin fs true links place (parts ++ names) = .ok (.node q n)) :
    ∃ b time, walkWithin fs true links place parts = .ok (.node b (.directory time)) := by
  induction links generalizing place parts q n with
  | zero =>
    refine exists_walkFrom_front h hnames (fun _ _ _ _ _ hfollow => ?_) hplace hwalk
    cases (hfollow : Except.error FileError.tooManyLinks = .ok _)
  | succ links ih =>
    exact exists_walkFrom_front h hnames (fun _ _ _ _ hplace hwalk => ih hplace hwalk) hplace hwalk

theorem exists_isDirectory (h : fs.IsSound) {p : Path} {names q : List String} {n : FileNode}
    (hnames : names ≠ []) (hfind : fs.find true (p.below names) = .ok (.node q n)) :
    ∃ b, fs.IsDirectory p b := by
  have hasked : refusal? (p.below []) = none := refusal?_of_below (refusal?_of_find hfind)
  rw [Path.below_nil] at hasked
  unfold find at hfind
  split at hfind
  · cases hfind
  · obtain ⟨b, time, hb⟩ := exists_walkWithin_front h hnames (h.isDirectoryAt_start p) hfind
    refine ⟨b, time, ?_⟩
    rw [find, hasked]
    exact hb

/-! Where the names behind a path lead. -/

/-- Something is below a place. -/
def IsBelow (b q : List String) : Prop := ∃ names, names ≠ [] ∧ q = b ++ names

instance (b q : List String) : Decidable (IsBelow b q) :=
  decidable_of_iff (b <+: q ∧ b ≠ q) <| by
    constructor
    · rintro ⟨⟨names, rfl⟩, hne⟩
      exact ⟨names, fun hnil => hne (by rw [hnil, List.append_nil]), rfl⟩
    · rintro ⟨names, hne, rfl⟩
      exact ⟨List.prefix_append _ _, fun heq => hne (List.self_eq_append_right.mp heq)⟩

/-- There are no links below a place. -/
def HasNoLinksBelow (fs : FileSystem) (b : List String) : Prop :=
  ∀ q, IsBelow b q → ¬ fs.IsLink q

/-- No links are among what names go over from a place. -/
def AreLinkFree (fs : FileSystem) (b names : List String) : Prop :=
  ∀ before, before ≠ [] → before <+: names → ¬ fs.IsLink (b ++ before)

theorem HasNoLinksBelow.areLinkFree {b : List String} (h : fs.HasNoLinksBelow b)
    (names : List String) : fs.AreLinkFree b names :=
  fun before hne _ => h _ ⟨before, hne, rfl⟩

/-- Names that come by no link go over none. -/
theorem areLinkFree_of_visits {b names : List String} (hnames : ∀ name ∈ names, name ≠ "..")
    (h : ∀ q, fs.Visits q b names → IsBelow b q → ¬ fs.IsLink q) : fs.AreLinkFree b names := by
  have hstep (place names : List String) (hnames : ∀ name ∈ names, name ≠ "..")
      (h : ∀ before, before ≠ [] → fs.Visits (place ++ before) place names →
        ¬ fs.IsLink (place ++ before)) : fs.AreLinkFree place names := by
    induction names generalizing place with
    | nil =>
      intro before hne hbefore
      exact absurd (List.prefix_nil.mp hbefore) hne
    | cons name names ih =>
      obtain ⟨hname, hrest⟩ := List.forall_mem_cons.mp hnames
      have hfirst := h [name] (List.cons_ne_nil _ _) (.next hname rfl)
      intro before hne hbefore
      cases before with
      | nil => exact absurd rfl hne
      | cons first more =>
        obtain ⟨rfl, hmore⟩ := List.cons_prefix_cons.mp hbefore
        by_cases hnil : more = []
        · rw [hnil]
          exact hfirst
        · rw [List.append_cons]
          refine ih (place ++ [first]) hrest (fun after _ hvisits => ?_) more hnil hmore
          rw [← List.append_cons] at hvisits ⊢
          exact h _ (List.cons_ne_nil _ _) (.on hname hfirst hvisits)
  exact hstep b names hnames fun before hne hvisits => h _ hvisits ⟨before, hne, rfl⟩

section Names

variable {p : Path} {b names q : List String} (hnames : ∀ name ∈ names, name ≠ "..")
include hnames

theorem LeadsTo.below (h : fs.LeadsTo p b) (hlinks : fs.AreLinkFree b names)
    (hnull : (p.below names).hasNull = false) : fs.LeadsTo (p.below names) (b ++ names) := by
  obtain ⟨-, links, hleads⟩ := h
  exact ⟨hnull, _, hleads.append (.names hnames hlinks)⟩

/-- What leads somewhere behind a path leads below the place of the path. -/
theorem LeadsTo.of_below (h : fs.LeadsTo (p.below names) q)
    (hlinks : ∀ b, fs.LeadsTo p b → fs.AreLinkFree b names) :
    ∃ b, fs.LeadsTo p b ∧ q = b ++ names := by
  obtain ⟨hnull, links, hleads⟩ := h
  obtain ⟨b, first, second, hfirst, hsecond, -⟩ := hleads.split
  have hp : fs.LeadsTo p b := by
    refine ⟨?_, first, hfirst⟩
    rw [← p.below_nil]
    exact Path.hasNull_of_below hnull
  exact ⟨b, hp, (hsecond.unique (.names hnames (hlinks b hp))).1⟩

theorem ComesBy.of_below (hp : fs.LeadsTo p b) (hlinks : fs.AreLinkFree b names)
    (h : fs.ComesBy (p.below names) q) :
    fs.ComesBy p q ∨ ∃ before, before <+: names ∧ q = b ++ before := by
  obtain ⟨-, links, hleads⟩ := hp
  exact (Visits.split hleads h).imp_right fun h => h.of_names hnames hlinks

theorem HasShortNames.below (h : fs.HasShortNames p) (hp : fs.LeadsTo p b)
    (hlinks : fs.AreLinkFree b names) (hpath : (p.below names).text.utf8ByteSize ≤ maxPathBytes)
    (hshort : ∀ name ∈ names, name.utf8ByteSize ≤ maxNameBytes) :
    fs.HasShortNames (p.below names) := by
  refine ⟨hpath, fun place name hcomes => ?_⟩
  rcases hcomes.of_below hnames hp hlinks with hcomes | ⟨before, hbefore, heq⟩
  · exact h.name place name hcomes
  · by_cases hnil : before = []
    · obtain ⟨-, links, hleads⟩ := hp
      rw [hnil, List.append_nil] at heq
      exact h.name place name (heq ▸ hleads.visits)
    · have hlast := congrArg List.getLast? heq
      rw [List.getLast?_concat, List.getLast?_append_of_ne_nil _ hnil] at hlast
      exact hshort name (hbefore.subset (List.mem_of_getLast? hlast.symm))

theorem ComesBy.below (hp : fs.LeadsTo p b) (hlinks : fs.AreLinkFree b names)
    {before : List String} (hbefore : before <+: names) :
    fs.ComesBy (p.below names) (b ++ before) := by
  obtain ⟨-, links, hleads⟩ := hp
  obtain ⟨more, rfl⟩ := hbefore
  have hfront (name : String) (hname : name ∈ before) : name ≠ ".." :=
    hnames name (List.mem_append_left _ hname)
  have hvisits : fs.Visits (b ++ before) b before :=
    (Leads.names hfront fun first hne hfirst =>
      hlinks first hne (hfirst.trans (List.prefix_append _ _))).visits
  exact .behind hleads (hvisits.append more)

end Names

/-! Making directories below a directory. -/

section Below

variable {p : Path} {b front names : List String} {last : String} (h : fs.IsSound)
  (hp : fs.IsDirectory p b)
include h hp

theorem exists_ensureDirectory (hlast : IsEntryName last)
    (hasked : refusal? (p.below (front ++ [last])) = none)
    (hfront : fs.IsDirectoryAt (b ++ front))
    (hclear : fs.node? (b ++ (front ++ [last])) = none ∨
      fs.IsDirectoryAt (b ++ (front ++ [last]))) :
    ∃ gs, fs.ensureDirectory (p.below (front ++ [last])) = .ok gs ∧
      gs.IsDirectoryAt (b ++ (front ++ [last])) := by
  have hne : front ++ [last] ≠ [] := by simp
  rcases hclear with hnone | hdirectory
  · have hfind := find_below false hp hne hasked
      fun _ => walkFrom_free h hfront hlast hnone
    have hfree : fs.node? (b ++ front ++ [last]) = none := find_isIn hfind
    refine ⟨fs.addNode (b ++ front) last (.directory fs.now), ?_, fs.now, ?_⟩
    · unfold ensureDirectory makeDirectory
      simp only [hfind]
    · rw [node?_addNode, if_pos (List.append_assoc ..).symm]
  · obtain ⟨time, htime⟩ := hdirectory
    have hfind := find_below true hp hne hasked
      fun _ => walkFrom_node h htime nofun
    exact ⟨fs, ensureDirectory_of_isDirectory (isDirectory_iff.mpr ⟨_, _, hfind⟩), time, htime⟩

/-- Directories can be made below a directory if no file is in the way. A call is needed for each
that is missing but the first one. -/
theorem exists_ensureWithin (hnames : ∀ name ∈ names, IsEntryName name)
    (hasked : refusal? (p.below names) = none)
    (hclear : ∀ before, before <+: names →
      fs.node? (b ++ before) = none ∨ fs.IsDirectoryAt (b ++ before))
    {calls : Nat} (hcalls : ∃ front rest, names = front ++ rest ∧ fs.IsDirectoryAt (b ++ front) ∧
      rest.length ≤ calls + 1) :
    ∃ gs, fs.ensureWithin calls (p.below names) = (.ok (), gs) ∧
      gs.IsDirectoryAt (b ++ names) := by
  induction names using List.reverseRecOn generalizing calls with
  | nil =>
    obtain ⟨time, hfind⟩ := hp
    rw [Path.below_nil, List.append_nil]
    exact ⟨fs, ensureWithin_of_isDirectory (isDirectory_iff.mpr ⟨_, _, hfind⟩) calls, time,
      find_isIn hfind⟩
  | append_singleton front last ih =>
    obtain ⟨hfrontNames, hlast⟩ := List.forall_mem_append.mp hnames
    have hlast := hlast last (List.mem_singleton_self last)
    have hhere := hclear _ (List.prefix_refl _)
    by_cases hfront : fs.IsDirectoryAt (b ++ front)
    · obtain ⟨gs, hgs, hdirectory⟩ := exists_ensureDirectory h hp hlast hasked hfront hhere
      refine ⟨gs, ?_, hdirectory⟩
      unfold ensureWithin
      rw [hgs]
    · obtain ⟨there, rest, hsplit, hthere, hlength⟩ := hcalls
      obtain ⟨rest, rfl, hfrontEq⟩ : ∃ more, rest = more ++ [last] ∧ front = there ++ more := by
        cases rest using List.reverseRecOn with
        | nil =>
          rw [List.append_nil] at hsplit
          rw [← hsplit, ← List.append_assoc] at hthere
          exact absurd (h.front (List.cons_ne_nil last []) hthere.choose_spec) hfront
        | append_singleton more _ =>
          rw [← List.append_assoc] at hsplit
          obtain ⟨hfronts, hlasts⟩ := List.append_inj' hsplit rfl
          exact ⟨more, by rw [hlasts], hfronts⟩
      obtain ⟨calls, rfl⟩ : ∃ n, calls = n + 1 := by
        refine Nat.exists_eq_succ_of_ne_zero fun hzero => hfront ?_
        have hnil : rest = [] := List.length_eq_zero_iff.mp (by simp at hlength; omega)
        rwa [hfrontEq, hnil, List.append_nil]
      have hfrontClear (before : List String) (hbefore : before <+: front) :=
        hclear before (hbefore.trans (List.prefix_append _ _))
      have hlost : fs.ensureDirectory (p.below (front ++ [last])) = .error .notFound := by
        have hfind := find_below false hp (by simp) hasked
          fun _ => walkFrom_lost hp.isDirectoryAt hfrontNames hfrontClear hfront
        unfold ensureDirectory makeDirectory
        simp only [hfind]
      obtain ⟨made, hmade, hmadeFront⟩ := ih hfrontNames (refusal?_of_below hasked) hfrontClear
        ⟨there, rest, hfrontEq, hthere, by simpa using hlength⟩
      have hmakes := makes_ensureWithin calls (p.below front) fs
      rw [hmade] at hmakes
      have hmadeHere : made.node? (b ++ (front ++ [last])) = none ∨
          made.IsDirectoryAt (b ++ (front ++ [last])) := by
        have hnode := hmakes.adds.node (b ++ (front ++ [last]))
        rcases hhere with hnone | hdirectory
        · rw [hnone] at hnode
          unfold IsDirectoryAt
          generalize made.node? (b ++ (front ++ [last])) = n at hnode
          cases hnode with
          | same => exact .inl rfl
          | made => exact .inr ⟨_, rfl⟩
        · exact .inr (hmakes.adds.grows.isDirectoryAt hdirectory)
      obtain ⟨gs, hgs, hdirectory⟩ := exists_ensureDirectory (hmakes.sound h)
        (hp.grows hmakes.adds.grows) hlast hasked hmadeFront hmadeHere
      refine ⟨gs, ?_, hdirectory⟩
      have hparts : ¬ (p.below (front ++ [last])).parts.isEmpty = true := by simp [Path.below]
      simp only [ensureWithin, hlost, if_neg hparts, Path.parent_below_concat, hmade, hgs]

omit hp in
/-- Where directories were made below a place, no more of them were missing than there were calls. -/
theorem exists_front_of_ensureWithin (hb : fs.LeadsTo p b) (hdots : ∀ name ∈ names, name ≠ "..")
    (hlinks : fs.AreLinkFree b names) {calls : Nat}
    (hmade : fs.ensureWithin calls (p.below names) = (.ok (), gs)) :
    ∃ front rest, names = front ++ rest ∧ (front = [] ∨ fs.IsDirectoryAt (b ++ front)) ∧
      rest.length ≤ calls + 1 := by
  induction names using List.reverseRecOn generalizing calls gs with
  | nil => exact ⟨[], [], rfl, .inl rfl, Nat.zero_le _⟩
  | append_singleton front last ih =>
    have hfrontLinks : fs.AreLinkFree b front := fun before hne hbefore =>
      hlinks before hne (hbefore.trans (List.prefix_append _ _))
    have hfrontDots : ∀ name ∈ front, name ≠ ".." :=
      fun name hname => hdots name (List.mem_append_left _ hname)
    have hplace {q : List String} (hq : fs.LeadsTo (p.below (front ++ [last])) q) :
        q = b ++ front ++ [last] := by
      rw [List.append_assoc]
      exact hq.unique (hb.below hdots hlinks hq.1)
    unfold ensureWithin at hmade
    split at hmade
    · -- the last one is there or can be made, so that the one around it is there
      rename_i made hensure
      refine ⟨front, [last], rfl, .inr ?_, by simp⟩
      unfold ensureDirectory at hensure
      split at hensure
      · cases hensure
      · rename_i hmake
        split at hensure
        · rename_i hdirectory
          obtain ⟨q, time, hfind⟩ := isDirectory_iff.mp (ask_eq_ok.mp hdirectory).2.symm
          obtain rfl := hplace (find_leadsTo hfind (.inl rfl))
          exact h.parent _ _ _ (find_isIn hfind)
        · cases hensure
        · cases hensure
      · rename_i hmake
        unfold makeDirectory at hmake
        split at hmake
        · cases hmake
        · rename_i parent name hfind
          have hq := hplace (find_leadsTo hfind (.inr trivial))
          obtain ⟨hparent, -⟩ := List.append_inj' hq rfl
          exact hparent ▸ (find_parent h hfind).1
        · cases hmake
    · split at hmade
      · cases hmade
      · cases calls with
        | zero => cases hmade
        | succ calls =>
          rw [Path.parent_below_concat] at hmade
          dsimp only at hmade
          split at hmade
          · cases hmade
          · rename_i hfrontMade
            obtain ⟨before, rest, rfl, hbefore, hlength⟩ := ih hfrontDots hfrontLinks hfrontMade
            exact ⟨before, rest ++ [last], by rw [List.append_assoc], hbefore, by simpa using hlength⟩
    · cases hmade

/-- A file can be written below a directory where none or a file stands. -/
theorem exists_write (hlast : IsEntryName last)
    (hasked : refusal? (p.below (front ++ [last])) = none)
    (hfront : fs.IsDirectoryAt (b ++ front))
    (hfree : ∀ n, fs.node? (b ++ (front ++ [last])) = some n → ∃ bytes time, n = .file bytes time)
    (bytes : List UInt8) : ∃ gs, fs.write (p.below (front ++ [last])) bytes = .ok gs := by
  have hne : front ++ [last] ≠ [] := by simp
  unfold write
  cases hnode : fs.node? (b ++ (front ++ [last])) with
  | none =>
    have hfind := find_below true hp hne hasked
      fun _ => walkFrom_free h hfront hlast hnode
    simp only [hfind]
    exact ⟨_, rfl⟩
  | some n =>
    obtain ⟨old, time, rfl⟩ := hfree n hnode
    have hfind := find_below true hp hne hasked
      fun _ => walkFrom_node h hnode nofun
    simp only [hfind]
    exact ⟨_, rfl⟩

/-- Why a file cannot be written below a directory. -/
theorem write_error (hdots : last ≠ "..") (hfront : fs.IsDirectoryAt (b ++ front))
    (hlink : ¬ fs.IsLink (b ++ (front ++ [last]))) {bytes : List UInt8} {e : FileError}
    (hwrite : fs.write (p.below (front ++ [last])) bytes = .error e) :
    e = (refusal? (p.below (front ++ [last]))).getD
      (if maxNameBytes < last.utf8ByteSize then .nameTooLong else .isDirectory) := by
  unfold write at hwrite
  cases hasked : refusal? (p.below (front ++ [last])) with
  | some refused =>
    rw [find, hasked] at hwrite
    exact (Except.error.inj hwrite).symm
  | none =>
    rw [Option.getD_none]
    have hne : front ++ [last] ≠ [] := by simp
    by_cases hname : maxNameBytes < last.utf8ByteSize
    · rw [if_pos hname]
      have hfind := find_below true hp hne hasked fun follow => by
        rw [walkFrom_front h last hfront, walkFrom, if_neg hdots, if_pos hname]
      rw [hfind] at hwrite
      exact (Except.error.inj hwrite).symm
    rw [if_neg hname]
    cases hnode : fs.node? (b ++ (front ++ [last])) with
    | none =>
      have hfind := find_below true hp hne hasked
        fun _ => walkFrom_free h hfront ⟨hdots, Nat.le_of_not_lt hname⟩ hnode
      rw [hfind] at hwrite
      cases hwrite
    | some n =>
      have hnolink (target : String) : n ≠ .link target := by
        rintro rfl
        exact hlink ⟨target, hnode⟩
      have hfind := find_below true hp hne hasked fun _ => walkFrom_node h hnode hnolink
      rw [hfind] at hwrite
      cases n with
      | file => cases hwrite
      | directory => exact (Except.error.inj hwrite).symm
      | link target => exact absurd rfl (hnolink target)

end Below

end FileSystem

end GraphQLDoc
