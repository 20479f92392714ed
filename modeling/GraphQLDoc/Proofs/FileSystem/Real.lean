import GraphQLDoc.Proofs.FileSystem.Walk
import Mathlib.Data.List.Induction

/-!
Sound file systems, in which everything stands in a directory. There the place that a path leads to is
its real path: a link that is followed to an end does not come back to itself.
-/
namespace GraphQLDoc.FileSystem

variable {fs gs : FileSystem}

def IsDirectoryAt (fs : FileSystem) (place : List String) : Prop :=
  ∃ time, fs.node? place = some (.directory time)

/-- A name that something in a directory can have. -/
structure IsEntryName (name : String) : Prop where
  dots : name ≠ ".."
  size : name.utf8ByteSize ≤ maxNameBytes

/-- Everything stands in a directory under the name of an entry, and so does the program. -/
structure IsSound (fs : FileSystem) : Prop where
  parent : ∀ place name n, fs.node? (place ++ [name]) = some n → fs.IsDirectoryAt place
  name : ∀ place name n, fs.node? (place ++ [name]) = some n → IsEntryName name
  working : fs.IsDirectoryAt fs.workingDirectory

theorem isDirectoryAt_root (fs : FileSystem) : fs.IsDirectoryAt [] := ⟨fs.now, if_pos rfl⟩

theorem IsDirectoryAt.not_isLink {place : List String} (h : fs.IsDirectoryAt place) :
    ¬ fs.IsLink place := by
  obtain ⟨time, htime⟩ := h
  exact FileSystem.not_isLink fun _ => by simp [htime]

instance (fs : FileSystem) (place : List String) : Decidable (fs.IsDirectoryAt place) :=
  match h : fs.node? place with
  | some (.directory time) => .isTrue ⟨time, h⟩
  | some (.file _ _) => .isFalse fun hd => nomatch h.symm.trans hd.choose_spec
  | some (.link _) => .isFalse fun hd => nomatch h.symm.trans hd.choose_spec
  | none => .isFalse fun hd => nomatch h.symm.trans hd.choose_spec

instance (name : String) : Decidable (IsEntryName name) :=
  decidable_of_iff (name ≠ ".." ∧ name.utf8ByteSize ≤ maxNameBytes)
    ⟨fun h => ⟨h.1, h.2⟩, fun h => ⟨h.1, h.2⟩⟩

/-! Names of every size. -/

def nameOfSize (n : Nat) : String := String.ofList (List.replicate n 'x')

theorem toList_nameOfSize (n : Nat) : (nameOfSize n).toList = List.replicate n 'x' :=
  String.toList_ofList

theorem utf8ByteSize_nameOfSize (n : Nat) : (nameOfSize n).utf8ByteSize = n := by
  unfold nameOfSize
  induction n with
  | zero => rfl
  | succ n ih =>
    have hletter : (String.singleton 'x').utf8ByteSize = 1 := by decide
    rw [List.replicate_succ, String.ofList_cons, String.utf8ByteSize_append, ih, hletter, Nat.add_comm]

theorem notMem_nameOfSize {c : Char} (hc : c ≠ 'x') (n : Nat) : c ∉ (nameOfSize n).toList := by
  rw [toList_nameOfSize]
  exact fun hmem => hc (List.eq_of_mem_replicate hmem)

theorem nameOfSize_ne_dots (n : Nat) : nameOfSize n ≠ ".." := fun h =>
  notMem_nameOfSize (by decide : '.' ≠ 'x') n (h ▸ by decide)

theorem isEntryName_nameOfSize {n : Nat} : IsEntryName (nameOfSize n) ↔ n ≤ maxNameBytes :=
  ⟨fun h => utf8ByteSize_nameOfSize n ▸ h.size,
    fun h => ⟨nameOfSize_ne_dots n, (utf8ByteSize_nameOfSize n).symm ▸ h⟩⟩

/-- A file system is sound if each of its nodes is. -/
theorem isSound_of_nodes (hworking : fs.IsDirectoryAt fs.workingDirectory)
    (hnodes : ∀ e ∈ fs.nodes, fs.IsDirectoryAt e.1.dropLast ∧ IsEntryName (e.1.getLastD "")) :
    fs.IsSound := by
  have hnode (place : List String) (name : String) (n : FileNode)
      (hn : fs.node? (place ++ [name]) = some n) :
      fs.IsDirectoryAt place ∧ IsEntryName name := by
    simpa using hnodes _ (mem_nodes hn (by simp))
  exact ⟨fun place name n hn => (hnode place name n hn).1,
    fun place name n hn => (hnode place name n hn).2, hworking⟩

/-- A place that no link and no double dots stand in front of. -/
structure IsReal (fs : FileSystem) (q : List String) : Prop where
  dots : ".." ∉ q
  link : ∀ r, r <+: q → ¬ fs.IsLink r

namespace IsSound

variable (h : fs.IsSound)
include h

/-- What stands before a node is a directory. -/
theorem front {q names : List String} (hnames : names ≠ []) {n : FileNode}
    (hn : fs.node? (q ++ names) = some n) : fs.IsDirectoryAt q := by
  induction names using List.reverseRecOn generalizing n with
  | nil => exact absurd rfl hnames
  | append_singleton names last ih =>
    rw [← List.append_assoc] at hn
    obtain ⟨time, htime⟩ := h.parent _ _ _ hn
    by_cases hnil : names = []
    · rw [hnil, List.append_nil] at htime
      exact ⟨time, htime⟩
    · exact ih hnil htime

theorem dropLast {q : List String} (hq : fs.IsDirectoryAt q) : fs.IsDirectoryAt q.dropLast := by
  by_cases hnil : q = []
  · rw [hnil]
    exact isDirectoryAt_root fs
  · obtain ⟨time, htime⟩ := hq
    rw [← List.dropLast_append_getLast hnil] at htime
    exact h.parent _ _ _ htime

theorem isEntryName {q : List String} {n : FileNode} (hn : fs.node? q = some n) {name : String}
    (hname : name ∈ q) : IsEntryName name := by
  obtain ⟨before, after, rfl⟩ := List.append_of_mem hname
  by_cases hnil : after = []
  · subst hnil
    exact h.name _ _ _ hn
  · rw [List.append_cons] at hn
    obtain ⟨time, htime⟩ := h.front hnil hn
    exact h.name _ _ _ htime

theorem isReal {q : List String} {n : FileNode} (hn : fs.node? q = some n)
    (hlink : ∀ target, n ≠ .link target) : fs.IsReal q where
  dots hdots := (h.isEntryName hn hdots).dots rfl
  link r := by
    rintro ⟨rest, rfl⟩
    by_cases hnil : rest = []
    · rw [hnil, List.append_nil] at hn
      exact FileSystem.not_isLink fun target htarget =>
        hlink target (Option.some.inj (hn.symm.trans htarget))
    · exact (h.front hnil hn).not_isLink

theorem isReal_of_isDirectoryAt {q : List String} (hq : fs.IsDirectoryAt q) : fs.IsReal q := by
  obtain ⟨time, htime⟩ := hq
  exact h.isReal htime nofun

theorem isReal_start (p : Path) : fs.IsReal (fs.start p) := by
  unfold start startFrom
  split
  · exact h.isReal_of_isDirectoryAt (isDirectoryAt_root fs)
  · exact h.isReal_of_isDirectoryAt h.working

theorem isDirectoryAt_start (p : Path) : fs.IsDirectoryAt (fs.start p) := by
  unfold start startFrom
  split
  · exact isDirectoryAt_root fs
  · exact h.working

end IsSound

/-- No double dots are left in a real path. -/
theorem dots_notMem_dropDots (parts : List String) : ".." ∉ dropDots parts := by
  have hfold (done : List String) (hdone : ".." ∉ done) : ".." ∉ parts.foldl
      (fun done part => if part = ".." then done.dropLast else done ++ [part]) done := by
    induction parts generalizing done with
    | nil => exact hdone
    | cons part rest ih =>
      rw [List.foldl_cons]
      split
      · exact ih _ fun hdots => hdone (List.dropLast_subset _ hdots)
      · rename_i hpart
        refine ih _ fun hdots => ?_
        rcases List.mem_append.mp hdots with hdots | hdots
        · exact hdone hdots
        · exact hpart (List.mem_singleton.mp hdots).symm
  exact hfold [] List.not_mem_nil

namespace IsReal

variable {q r place parts : List String} {links : Nat}

theorem prefix_of (hq : fs.IsReal q) (hr : r <+: q) : fs.IsReal r where
  dots hdots := hq.dots (hr.subset hdots)
  link s hs := hq.link s (hs.trans hr)

theorem root (hq : fs.IsReal q) : fs.IsReal [] := hq.prefix_of List.nil_prefix

theorem concat (hq : fs.IsReal q) {part : String} (hpart : part ≠ "..")
    (hlink : ¬ fs.IsLink (q ++ [part])) : fs.IsReal (q ++ [part]) where
  dots hdots := by
    rcases List.mem_append.mp hdots with hdots | hdots
    · exact hq.dots hdots
    · exact hpart (List.mem_singleton.mp hdots).symm
  link r hr := by
    rcases List.prefix_concat_iff.mp hr with rfl | hr
    · exact hlink
    · exact hq.link r hr

/-- Going over components from a real place leads to a real place. -/
theorem leads (hplace : fs.IsReal place) (h : fs.Leads q links place parts) : fs.IsReal q := by
  induction h with
  | done => exact hplace
  | up _ ih => exact ih (hplace.prefix_of (List.dropLast_prefix _))
  | on hpart hlink _ ih => exact ih (hplace.concat hpart hlink)
  | @link links place rest part target hpart hlink _ ih =>
    refine ih ?_
    unfold startFrom
    split
    · exact hplace.root
    · exact hplace

theorem dropDots_eq (hq : fs.IsReal q) : dropDots q = q := by
  have hfold (done rest : List String) (hrest : ".." ∉ rest) : rest.foldl
      (fun done part => if part = ".." then done.dropLast else done ++ [part]) done =
        done ++ rest := by
    induction rest generalizing done with
    | nil => exact (List.append_nil done).symm
    | cons part rest ih =>
      obtain ⟨hpart, hrest⟩ := not_or.mp (mt List.mem_cons.mpr hrest)
      rw [List.foldl_cons, if_neg (Ne.symm hpart), ih _ hrest, List.append_assoc,
        List.singleton_append]
  exact hfold [] q hq.dots

/-- No link is followed on the way to a real place. -/
theorem walkFrom_ne {followLast : Bool} {follow : List String → List String → Except FileError Found}
    (h : fs.IsReal (place ++ parts)) :
    walkFrom fs followLast follow place parts ≠ .error .tooManyLinks := by
  intro hloop
  fun_induction walkFrom fs followLast follow place parts with
  | case3 place rest ih => exact h.dots (List.mem_append_right _ List.mem_cons_self)
  | case7 place part rest hdots hname next time hnext ih =>
    exact ih (by simpa [next] using h) hloop
  | case10 place part rest hdots hname next target hnext =>
    exact h.link next ⟨rest, by simp [next]⟩ ⟨target, hnext⟩
  | case11 place part rest hdots hname next target hnext =>
    exact h.link next ⟨rest, by simp [next]⟩ ⟨target, hnext⟩
  | _ => cases hloop

theorem stat_ne (h : fs.IsReal q) : fs.stat (.absolute q) ≠ .error .tooManyLinks := by
  intro hloop
  unfold stat find at hloop
  split at hloop
  · exact nomatch hloop
  · exact nomatch hloop
  · rename_i e he
    obtain rfl := Except.error.inj hloop
    split at he
    · rename_i hrefusal
      obtain rfl := Except.error.inj he
      exact refusal?_ne_tooManyLinks _ hrefusal
    · exact (h : fs.IsReal ([] ++ q)).walkFrom_ne he

end IsReal

/-- A path that leads to a place by way of its links enters none of them twice. What has been entered
leads on over at least as many links as are left. -/
theorem Leads.realFrom_eq {q place parts : List String} {links depth : Nat}
    {entered : List (List String)} (h : fs.Leads q links place parts)
    (hnodup : entered.Nodup) (hlinks : ∀ e ∈ entered, fs.IsLink e)
    (hdepth : fs.nodes.length < depth + entered.length)
    (hentered : ∀ e ∈ entered, ∀ target, fs.node? e = some (.link target) → ∀ r followed,
      fs.Leads r followed (startFrom e.dropLast (.ofString target)) (Path.ofString target).parts →
      links ≤ followed) :
    realFrom fs (enterLink fs depth entered) place parts = (q, true) := by
  induction links using Nat.strongRecOn generalizing q place parts depth entered with
  | ind links ihlinks =>
  induction h with
  | done => rfl
  | up _ ih =>
    rw [realFrom, if_pos rfl]
    exact ih ihlinks hentered
  | @on links place rest part hpart hlink _ ih =>
    rw [realFrom, if_neg hpart]
    dsimp only
    split
    · rename_i target htarget
      exact absurd ⟨target, htarget⟩ hlink
    · exact ih ihlinks hentered
  | @link links place rest part target hpart hlink hleads ih =>
    obtain ⟨m, first, second, hfirst, hsecond, rfl⟩ := hleads.split
    have hparent : (place ++ [part]).dropLast = place := List.dropLast_concat
    have hnew : place ++ [part] ∉ entered := by
      intro hmem
      have hle := hentered _ hmem target hlink m first (by rwa [hparent])
      omega
    have hinside : enterLink fs depth entered (place ++ [part]) place (.ofString target) =
        (m, true) := by
      cases depth with
      | zero =>
        have hlength := length_le_of_isLink hnodup hlinks
        omega
      | succ depth =>
        rw [enterLink, if_neg hnew]
        refine ihlinks first (by omega) hfirst (List.nodup_cons.mpr ⟨hnew, hnodup⟩)
          (List.forall_mem_cons.mpr ⟨⟨target, hlink⟩, hlinks⟩) (by rw [List.length_cons]; omega) ?_
        rintro e he target' htarget' r followed hfollowed
        rcases List.mem_cons.mp he with rfl | he
        · obtain rfl := FileNode.link.inj (Option.some.inj (hlink.symm.trans htarget'))
          rw [hparent] at hfollowed
          exact Nat.le_of_eq (hfirst.unique hfollowed).2
        · have hle := hentered e he target' htarget' r followed hfollowed
          omega
    rw [realFrom, if_neg hpart]
    simp only [hlink, hinside]
    refine ihlinks second (by omega) hsecond hnodup hlinks hdepth ?_
    intro e he target' htarget' r followed hfollowed
    have hle := hentered e he target' htarget' r followed hfollowed
    omega

/-- The place that a path leads to is its real path. -/
theorem IsSound.resolve_of_leadsTo (h : fs.IsSound) {p : Path} {q : List String}
    (hp : fs.LeadsTo p q) : fs.resolve p = .ok (.absolute q) := by
  obtain ⟨hnull, links, hleads⟩ := hp
  have hq := (h.isReal_start p).leads hleads
  have hreal : realFrom fs (enterLink fs (fs.nodes.length + 1) []) (fs.start p) p.parts =
      (q, true) :=
    hleads.realFrom_eq .nil nofun (Nat.lt_succ_self _) nofun
  unfold start startFrom at hreal
  unfold resolve
  simp only [hnull, Bool.false_eq_true, if_false, hreal, hq.dropDots_eq]
  split
  · rename_i hloop
    exact absurd hloop hq.stat_ne
  · rfl

end GraphQLDoc.FileSystem
