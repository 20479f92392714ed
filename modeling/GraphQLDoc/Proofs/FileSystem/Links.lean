import GraphQLDoc.FileSystem.Change
import GraphQLDoc.FileSystem.Resolve
import Mathlib.Data.List.Perm.Subperm
import Mathlib.Data.List.Nodup

/-!
Links under changes. Files and directories that are written replace no link and make none, so that a
path really is where it was before.
-/
namespace GraphQLDoc.FileSystem

variable {fs gs hs : FileSystem}

def IsLink (fs : FileSystem) (place : List String) : Prop :=
  ∃ target, fs.node? place = some (.link target)

/-- The same links, seen from the same working directory. -/
structure KeepsLinks (fs gs : FileSystem) : Prop where
  workingDirectory : gs.workingDirectory = fs.workingDirectory
  link : ∀ place target, gs.node? place = some (.link target) ↔ fs.node? place = some (.link target)

namespace KeepsLinks

theorem refl (fs : FileSystem) : KeepsLinks fs fs := ⟨rfl, fun _ _ => .rfl⟩

theorem trans (h : KeepsLinks fs gs) (h' : KeepsLinks gs hs) : KeepsLinks fs hs :=
  ⟨h'.workingDirectory.trans h.workingDirectory, fun place target =>
    (h'.link place target).trans (h.link place target)⟩

theorem isLink (h : KeepsLinks fs gs) (place : List String) : IsLink gs place ↔ IsLink fs place :=
  exists_congr fun target => h.link place target

end KeepsLinks

/-! Real paths. -/

theorem mem_of_get? {α β : Type} [DecidableEq α] {key : α} {value : β}
    {es : List (α × β)} (h : Entries.get? key es = some value) : (key, value) ∈ es := by
  induction es with
  | nil => exact nomatch h
  | cons e es ih =>
    obtain ⟨k, v⟩ := e
    rw [Entries.get?] at h
    split at h
    case isTrue hk =>
      obtain rfl := Option.some.inj h
      exact hk ▸ List.mem_cons_self
    case isFalse => exact List.mem_cons_of_mem _ (ih h)

theorem mem_nodes {n : FileNode} (h : fs.node? place = some n) (hplace : place ≠ []) :
    (place, n) ∈ fs.nodes := by
  rw [node?, if_neg hplace] at h
  exact mem_of_get? h

theorem IsLink.mem_nodes {target : String} (h : fs.node? place = some (.link target)) :
    (place, .link target) ∈ fs.nodes := by
  refine FileSystem.mem_nodes h ?_
  rintro rfl
  cases h

theorem IsLink.mem (h : IsLink fs place) : place ∈ fs.nodes.map Prod.fst := by
  obtain ⟨target, h⟩ := h
  exact List.mem_map.mpr ⟨_, IsLink.mem_nodes h, rfl⟩

/-- There are no more links than nodes. -/
theorem length_le_of_isLink {entered : List (List String)} (hnodup : entered.Nodup)
    (hlinks : ∀ place ∈ entered, IsLink fs place) : entered.length ≤ fs.nodes.length := by
  have hsubset : entered ⊆ fs.nodes.map Prod.fst := fun place hplace => (hlinks place hplace).mem
  simpa using (hnodup.subperm hsubset).length_le

theorem realFrom_congr (h : KeepsLinks fs gs)
    {enter enter' : List String → List String → Path → List String × Bool}
    (henter : ∀ place, IsLink fs place → ∀ parent p, enter place parent p = enter' place parent p)
    (place parts : List String) : realFrom fs enter place parts = realFrom gs enter' place parts := by
  induction parts generalizing place with
  | nil => rfl
  | cons part rest ih =>
    unfold realFrom
    by_cases hdots : part = ".."
    · rw [if_pos hdots, if_pos hdots, ih]
    · rw [if_neg hdots, if_neg hdots]
      dsimp only
      by_cases hlink : IsLink fs (place ++ [part])
      · obtain ⟨target, htarget⟩ := hlink
        rw [htarget, (h.link _ _).mpr htarget]
        simp only [henter _ ⟨target, htarget⟩, ih]
      · have hfs : ∀ target, fs.node? (place ++ [part]) ≠ some (.link target) :=
          fun target htarget => hlink ⟨target, htarget⟩
        have hgs : ∀ target, gs.node? (place ++ [part]) ≠ some (.link target) :=
          fun target htarget => hlink ⟨target, (h.link _ _).mp htarget⟩
        split
        case h_1 htarget => exact absurd htarget (hfs _)
        case h_2 => exact ih _

/-- The depth does not show as long as it is more than the number of links that can be entered. -/
theorem enterLink_congr (h : KeepsLinks fs gs) {depth depth' : Nat} {entered : List (List String)}
    (hnodup : entered.Nodup) (hlinks : ∀ place ∈ entered, IsLink fs place)
    (hdepth : fs.nodes.length < depth + entered.length)
    (hdepth' : gs.nodes.length < depth' + entered.length) {place : List String}
    (hplace : IsLink fs place) (parent : List String) (target : Path) :
    enterLink fs depth entered place parent target =
      enterLink gs depth' entered place parent target := by
  induction depth generalizing depth' entered place parent target with
  | zero =>
    have hle := length_le_of_isLink hnodup hlinks
    omega
  | succ depth ih =>
    cases depth' with
    | zero =>
      have hle := length_le_of_isLink hnodup fun p hp => (h.isLink p).mpr (hlinks p hp)
      omega
    | succ depth' =>
      unfold enterLink
      by_cases hentered : place ∈ entered
      · rw [if_pos hentered, if_pos hentered]
      · rw [if_neg hentered, if_neg hentered]
        refine realFrom_congr h (fun next hnext parent p => ?_) _ _
        refine ih (List.nodup_cons.mpr ⟨hentered, hnodup⟩)
          (List.forall_mem_cons.mpr ⟨hplace, hlinks⟩) ?_ ?_ hnext parent p <;>
          rw [List.length_cons] <;> omega

/-- The real path of a path, if there is one. -/
def realPath (fs : FileSystem) (p : Path) : Path :=
  .absolute (dropDots (realFrom fs (enterLink fs (fs.nodes.length + 1) [])
    (if p.isAbsolute then [] else fs.workingDirectory) p.parts).1)

theorem resolve_eq_ok_iff {p a : Path} : fs.resolve p = .ok a ↔
    p.hasNull = false ∧ fs.realPath p = a ∧ fs.stat a ≠ .error .tooManyLinks := by
  unfold resolve
  by_cases hnull : p.hasNull = true
  · simp [hnull]
  · rw [if_neg hnull]
    dsimp only
    rw [← realPath]
    split
    · rename_i hloop
      refine iff_of_false (fun heq => by cases heq) ?_
      rintro ⟨-, rfl, hstat⟩
      exact hstat hloop
    · rename_i hstat
      constructor
      · intro heq
        obtain rfl := Except.ok.inj heq
        exact ⟨by simpa using hnull, rfl, hstat⟩
      · rintro ⟨-, rfl, -⟩
        rfl

theorem hasNull_of_resolve {p : Path} (h : fs.resolve p = .error .nullCharacter) :
    p.hasNull = true := by
  by_contra hnull
  unfold resolve at h
  rw [if_neg hnull] at h
  dsimp only at h
  split at h <;> cases h

theorem KeepsLinks.realPath_eq (h : KeepsLinks fs gs) (p : Path) : gs.realPath p = fs.realPath p := by
  have hreal : ∀ place parts, realFrom fs (enterLink fs (fs.nodes.length + 1) []) place parts =
      realFrom gs (enterLink gs (gs.nodes.length + 1) []) place parts :=
    realFrom_congr h fun place hplace parent q => enterLink_congr h .nil nofun
      (Nat.lt_succ_self _) (Nat.lt_succ_self _) hplace parent q
  rw [realPath, realPath, hreal, h.workingDirectory]

/-- A path that has a real path keeps it. -/
theorem KeepsLinks.resolve_eq (h : KeepsLinks fs gs) {p a b : Path} (ha : fs.resolve p = .ok a)
    (hb : gs.resolve p = .ok b) : b = a := by
  obtain ⟨-, rfl, -⟩ := resolve_eq_ok_iff.mp ha
  obtain ⟨-, rfl, -⟩ := resolve_eq_ok_iff.mp hb
  exact h.realPath_eq p

/-! Changes. -/

theorem node?_setNode (fs : FileSystem) (place q : List String) (n : FileNode) :
    (fs.setNode place n).node? q =
      if q = [] then some (.directory fs.now) else if q = place then some n else fs.node? q := by
  by_cases hq : q = []
  · simp [node?, setNode, hq]
  · simp [node?, setNode, hq, Entries.get?_put]

theorem KeepsLinks.setNode {place : List String} {n : FileNode} (hplace : ¬ IsLink fs place)
    (hn : ∀ target, n ≠ .link target) : KeepsLinks fs (fs.setNode place n) where
  workingDirectory := rfl
  link q target := by
    rw [node?_setNode]
    by_cases hq : q = []
    · simp [node?, hq]
    · rw [if_neg hq]
      by_cases hqp : q = place
      · subst hqp
        rw [if_pos rfl]
        exact ⟨fun h => absurd (Option.some.inj h) (hn target), fun h => absurd ⟨target, h⟩ hplace⟩
      · rw [if_neg hqp]

theorem KeepsLinks.touch (fs : FileSystem) (place : List String) :
    KeepsLinks fs (fs.touch place) := by
  unfold FileSystem.touch
  split
  case h_1 time hdirectory =>
    split
    · exact .refl fs
    · refine .setNode (fun ⟨target, h⟩ => ?_) nofun
      rw [hdirectory] at h
      exact nomatch h
  case h_2 => exact .refl fs

theorem KeepsLinks.addNode {parent : List String} {name : String} {n : FileNode}
    (hfree : fs.node? (parent ++ [name]) = none) (hn : ∀ target, n ≠ .link target) :
    KeepsLinks fs (fs.addNode parent name n) := by
  have htouch := KeepsLinks.touch fs parent
  refine htouch.trans (.setNode (fun hlink => ?_) hn)
  obtain ⟨target, h⟩ := (htouch.isLink _).mp hlink
  rw [hfree] at h
  exact nomatch h

/-- What a walk ends at is there, or it is free. -/
def Found.IsIn (fs : FileSystem) : Found → Prop
  | .node place n => fs.node? place = some n
  | .missing parent name => fs.node? (parent ++ [name]) = none

theorem walkFrom_isIn {followLast : Bool} {follow : List String → List String → Except FileError Found}
    (hfollow : ∀ place parts found, follow place parts = .ok found → found.IsIn fs)
    {place parts : List String} {found : Found}
    (h : walkFrom fs followLast follow place parts = .ok found) : found.IsIn fs := by
  fun_induction walkFrom with
  | case1 place n hn => exact Except.ok.inj h ▸ hn
  | case2 => exact nomatch h
  | case3 place rest ih => exact ih h
  | case4 => exact nomatch h
  | case5 place part rest hdots hname next hnone hrest => exact Except.ok.inj h ▸ hnone
  | case6 => exact nomatch h
  | case7 place part rest hdots hname next time hnext ih => exact ih h
  | case8 place part rest hdots hname next bytes time hnext hrest => exact Except.ok.inj h ▸ hnext
  | case9 => exact nomatch h
  | case10 place part rest hdots hname next target hnext hlast => exact Except.ok.inj h ▸ hnext
  | case11 place part rest hdots hname next target hnext hlast p => exact hfollow _ _ _ h

theorem walkWithin_isIn {followLast : Bool} {links : Nat} {place parts : List String} {found : Found}
    (h : walkWithin fs followLast links place parts = .ok found) : found.IsIn fs := by
  induction links generalizing place parts found with
  | zero =>
    refine walkFrom_isIn (fun _ _ found hfollow => ?_) h
    exact nomatch (hfollow : Except.error FileError.tooManyLinks = .ok found)
  | succ links ih => exact walkFrom_isIn (fun _ _ _ h => ih h) h

theorem find_isIn {followLast : Bool} {p : Path} {found : Found}
    (h : fs.find followLast p = .ok found) : found.IsIn fs := by
  unfold find at h
  split at h
  · exact nomatch h
  · exact walkWithin_isIn h

theorem KeepsLinks.write {p : Path} {bytes : List UInt8} (h : fs.write p bytes = .ok gs) :
    KeepsLinks fs gs := by
  unfold FileSystem.write at h
  split at h
  case h_1 place old time hfound =>
    obtain rfl := Except.ok.inj h
    refine .setNode (fun ⟨target, hlink⟩ => ?_) nofun
    rw [show fs.node? place = _ from find_isIn hfound] at hlink
    exact nomatch hlink
  case h_2 => exact nomatch h
  case h_3 parent name hfound =>
    obtain rfl := Except.ok.inj h
    exact .addNode (find_isIn hfound) nofun
  case h_4 => exact nomatch h

theorem KeepsLinks.makeDirectory {p : Path} (h : fs.makeDirectory p = .ok gs) :
    KeepsLinks fs gs := by
  unfold FileSystem.makeDirectory at h
  split at h
  case h_1 => exact nomatch h
  case h_2 parent name hfound =>
    obtain rfl := Except.ok.inj h
    exact .addNode (find_isIn hfound) nofun
  case h_3 => exact nomatch h

/-- A directory is there already, or it is made. -/
theorem eq_or_of_ensureDirectory {p : Path} (h : fs.ensureDirectory p = .ok gs) :
    gs = fs ∨ fs.makeDirectory p = .ok gs := by
  unfold ensureDirectory at h
  split at h
  case h_1 => exact nomatch h
  case h_2 =>
    split at h
    · exact .inl (Except.ok.inj h).symm
    · exact nomatch h
    · exact nomatch h
  case h_3 made hmade => exact .inr (hmade.trans h)

theorem KeepsLinks.ensureDirectory {p : Path} (h : fs.ensureDirectory p = .ok gs) :
    KeepsLinks fs gs := by
  rcases eq_or_of_ensureDirectory h with rfl | hmade
  · exact .refl gs
  · exact .makeDirectory hmade

theorem KeepsLinks.ensureWithin (calls : Nat) (p : Path) (fs : FileSystem) :
    KeepsLinks fs (fs.ensureWithin calls p).2 := by
  fun_induction FileSystem.ensureWithin with
  | case1 calls p made hmade => exact .ensureDirectory hmade
  | case2 calls p hmissing hroot => exact .refl fs
  | case3 p hmissing hparts => exact .refl fs
  | case4 p hmissing hparts calls e made hmade ih => rwa [hmade] at ih
  | case5 p hmissing hparts calls made hmade made' hmade' ih =>
    rw [hmade] at ih
    exact ih.trans (.ensureDirectory hmade')
  | case6 p hmissing hparts calls made hmade e he ih => rwa [hmade] at ih
  | case7 calls p e hmissing he => exact .refl fs

end GraphQLDoc.FileSystem
