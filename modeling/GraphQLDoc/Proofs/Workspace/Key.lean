import GraphQLDoc.Workspace.Compile
import Mathlib.Data.List.Basic

/-!
When two sources share a key or an artifact. The key keeps all of a path below the root but the last
suffix, as long as no name on the path holds a backslash, and the artifact keeps all of the key.
-/
namespace GraphQLDoc

/-- A name on a path, without a backslash. -/
structure Path.IsPlainPart (part : String) : Prop where
  isPart : Path.isPart part = true
  slash : '/' ∉ part.toList
  backslash : '\\' ∉ part.toList

/-- The components of a path below the root, of which there is at least one. -/
structure Path.IsPlain (parts : List String) : Prop where
  nonempty : parts ≠ []
  part : ∀ part ∈ parts, IsPlainPart part

instance (part : String) : Decidable (Path.IsPlainPart part) :=
  decidable_of_iff (Path.isPart part = true ∧ '/' ∉ part.toList ∧ '\\' ∉ part.toList)
    ⟨fun ⟨h₁, h₂, h₃⟩ => ⟨h₁, h₂, h₃⟩, fun ⟨h₁, h₂, h₃⟩ => ⟨h₁, h₂, h₃⟩⟩

instance (parts : List String) : Decidable (Path.IsPlain parts) :=
  decidable_of_iff (parts ≠ [] ∧ ∀ part ∈ parts, Path.IsPlainPart part)
    ⟨fun ⟨h₁, h₂⟩ => ⟨h₁, h₂⟩, fun ⟨h₁, h₂⟩ => ⟨h₁, h₂⟩⟩

theorem Path.toList_stem_isPrefix (name : String) : (stem name).toList <+: name.toList := by
  unfold stem
  dsimp only
  split
  · exact List.prefix_refl _
  · rw [String.toList_ofList]
    exact List.take_prefix _ _

/-- What is behind a path is the path and the components behind it. -/
theorem Path.eq_of_behind? {base p : Path} {parts : List String} (h : base.behind? p = some parts) :
    p = ⟨base.anchor, base.parts ++ parts⟩ := by
  unfold behind? at h
  split at h
  case isTrue hfront =>
    obtain ⟨hanchor, rest, hrest⟩ := And.imp_right List.isPrefixOf_iff_prefix.mp hfront
    rw [← hrest, List.drop_left, Option.some.injEq] at h
    rw [← h, hrest, ← hanchor]
  case isFalse => cases h

theorem Path.behind?_append (base : Path) (parts : List String) :
    base.behind? ⟨base.anchor, base.parts ++ parts⟩ = some parts := by
  simp [behind?]

/-! Splitting a text at a character. -/

theorem splitOn_intercalate_eq_flatMap {α : Type} [BEq α] [LawfulBEq α] (a : α)
    {ls : List (List α)} (hls : ls ≠ []) :
    ([a].intercalate ls).splitOn a = ls.flatMap (List.splitOn a) := by
  induction ls with
  | nil => exact absurd rfl hls
  | cons l ls ih =>
    cases ls with
    | nil => simp
    | cons l' ls =>
      rw [List.intercalate_cons_cons, List.append_assoc, List.singleton_append,
        List.splitOn_append_cons_self, ih (List.cons_ne_nil _ _)]
      rfl

theorem map_intercalate {α β : Type} (f : α → β) (a : α) (ls : List (List α)) :
    ([a].intercalate ls).map f = [f a].intercalate (ls.map (List.map f)) := by
  induction ls with
  | nil => rfl
  | cons l ls ih =>
    cases ls with
    | nil => simp
    | cons l' ls =>
      simp only [List.map_cons] at ih ⊢
      rw [List.intercalate_cons_cons, List.intercalate_cons_cons, List.map_append, List.map_append, ih]
      rfl

theorem subset_of_mem_splitOn {α : Type} [BEq α] [LawfulBEq α] {a : α} {l as : List α}
    (h : l ∈ as.splitOn a) : l ⊆ as := by
  induction as generalizing l with
  | nil =>
    obtain rfl : l = [] := by simpa using h
    exact List.Subset.refl _
  | cons c as ih =>
    rw [List.splitOn_cons_eq_if_modifyHead] at h
    split at h
    · rcases List.mem_cons.mp h with rfl | h
      · exact List.nil_subset _
      · exact List.subset_cons_of_subset c (ih h)
    · generalize hsplit : as.splitOn a = pieces at h
      cases pieces with
      | nil => exact nomatch h
      | cons piece pieces =>
        rcases List.mem_cons.mp h with rfl | h
        · exact List.cons_subset_cons c (ih (hsplit ▸ List.mem_cons_self))
        · exact List.subset_cons_of_subset c (ih (hsplit ▸ List.mem_cons_of_mem _ h))

/-- Of the front of a text all pieces but the last are pieces of the text. -/
theorem dropLast_splitOn_isPrefix {α : Type} [BEq α] [LawfulBEq α] (a : α) (front rest : List α) :
    (front.splitOn a).dropLast <+: (front ++ rest).splitOn a := by
  induction front with
  | nil => exact List.nil_prefix
  | cons c front ih =>
    have hne := List.splitOn_ne_nil a front
    rw [List.cons_append, List.splitOn_cons_eq_if_modifyHead, List.splitOn_cons_eq_if_modifyHead]
    generalize front.splitOn a = pieces, (front ++ rest).splitOn a = more at ih hne
    split
    · rw [List.dropLast_cons_of_ne_nil hne]
      exact List.cons_prefix_cons.mpr ⟨rfl, ih⟩
    · cases pieces with
      | nil => exact absurd rfl hne
      | cons piece pieces =>
        cases pieces with
        | nil => exact List.nil_prefix
        | cons piece' pieces =>
          rw [List.dropLast_cons_cons] at ih
          obtain ⟨after, rfl⟩ := ih
          exact ⟨after, rfl⟩

namespace Compile

/-- The components of a path with the last one short of its suffix. -/
def withoutSuffix (parts : List String) : List String :=
  parts.dropLast ++ [Path.stem (parts.getLastD "")]

theorem withoutSuffix_ne_nil (parts : List String) : withoutSuffix parts ≠ [] := by
  simp [withoutSuffix]

theorem notMem_withoutSuffix {parts : List String} {c : Char}
    (h : ∀ part ∈ parts, c ∉ part.toList) : ∀ part ∈ withoutSuffix parts, c ∉ part.toList := by
  intro part hpart
  rcases List.mem_append.mp hpart with hpart | hpart
  · exact h part (List.dropLast_subset _ hpart)
  · obtain rfl := List.mem_singleton.mp hpart
    intro hc
    have hlast := (Path.toList_stem_isPrefix _).subset hc
    cases hparts : parts.getLast? with
    | none =>
      rw [List.getLastD_eq_getLast?, hparts] at hlast
      exact nomatch hlast
    | some last =>
      rw [List.getLastD_eq_getLast?, hparts] at hlast
      exact h last (List.mem_of_getLast? hparts) hlast

/-- The names between the backslashes of a name. -/
def pieces (name : String) : List String := (name.toList.splitOn '\\').map String.ofList

theorem pieces_of_notMem {name : String} (h : '\\' ∉ name.toList) : pieces name = [name] := by
  rw [pieces, List.splitOn_eq_singleton h, List.map_singleton, String.ofList_toList]

theorem splitOn_slashes {cs : List Char} (h : '/' ∉ cs) :
    (cs.map fun c => if c = '\\' then '/' else c).splitOn '/' = cs.splitOn '\\' := by
  induction cs with
  | nil => rfl
  | cons c cs ih =>
    obtain ⟨hc, hcs⟩ := not_or.mp (mt List.mem_cons.mpr h)
    rw [List.map_cons, List.splitOn_cons_eq_if_modifyHead, List.splitOn_cons_eq_if_modifyHead, ih hcs]
    by_cases hback : c = '\\'
    · subst hback
      rfl
    · rw [if_neg hback, if_neg (by simpa using Ne.symm hc), if_neg (by simpa using hback)]

/-- The key says each component, where a backslash in a name divides it. -/
theorem splitOn_key {parts : List String} (h : ∀ part ∈ parts, '/' ∉ part.toList) :
    ((keyOfParts parts).toList.splitOn '/').map String.ofList =
      (withoutSuffix parts).flatMap pieces := by
  have htext : ("/".intercalate (withoutSuffix parts)).toList =
      ['/'].intercalate ((withoutSuffix parts).map String.toList) := String.toList_intercalate
  have hkey : (keyOfParts parts).toList = ['/'].intercalate
      ((withoutSuffix parts).map fun part => part.toList.map fun c => if c = '\\' then '/' else c) := by
    show (String.ofList (("/".intercalate (withoutSuffix parts)).toList.map _)).toList = _
    rw [String.toList_ofList, htext, map_intercalate, List.map_map]
    rfl
  rw [hkey, splitOn_intercalate_eq_flatMap _ (by simpa using withoutSuffix_ne_nil parts),
    List.flatMap_map, List.map_flatMap]
  refine List.flatMap_congr fun part hpart => ?_
  rw [splitOn_slashes (notMem_withoutSuffix h part hpart), pieces]

/-- The names that lead from the build directory to the artifact of a source. -/
def writtenNames (parts : List String) : List String :=
  let names := (withoutSuffix parts).flatMap pieces
  names.dropLast.filter Path.isPart ++ [names.getLastD "" ++ Artifact.suffix]

theorem artifact_eq_writtenNames {parts : List String} (h : ∀ part ∈ parts, '/' ∉ part.toList)
    (build : Path) :
    artifact build (keyOfParts parts) = ⟨build.anchor, build.parts ++ writtenNames parts⟩ := by
  simp only [artifact, splitOn_key h, writtenNames, List.append_assoc]

theorem artifact_eq_iff_writtenNames {ps qs : List String} (hp : ∀ part ∈ ps, '/' ∉ part.toList)
    (hq : ∀ part ∈ qs, '/' ∉ part.toList) (build : Path) :
    artifact build (keyOfParts ps) = artifact build (keyOfParts qs) ↔
      writtenNames ps = writtenNames qs := by
  rw [artifact_eq_writtenNames hp, artifact_eq_writtenNames hq, Path.mk.injEq]
  exact ⟨fun h => List.append_cancel_left h.2, fun h => ⟨rfl, congrArg _ h⟩⟩

/-- Without backslashes the key says each component. -/
theorem splitOn_keyOfParts {parts : List String} (h : Path.IsPlain parts) :
    ((keyOfParts parts).toList.splitOn '/').map String.ofList = withoutSuffix parts := by
  have hbackslash := notMem_withoutSuffix fun part hpart => (h.part part hpart).backslash
  rw [splitOn_key fun part hpart => (h.part part hpart).slash]
  calc (withoutSuffix parts).flatMap pieces
      = (withoutSuffix parts).flatMap fun part => [part] :=
        List.flatMap_congr fun part hpart => pieces_of_notMem (hbackslash part hpart)
    _ = withoutSuffix parts := List.flatMap_singleton' _

theorem keyOfParts_eq_iff {ps qs : List String} (hp : Path.IsPlain ps) (hq : Path.IsPlain qs) :
    keyOfParts ps = keyOfParts qs ↔ withoutSuffix ps = withoutSuffix qs := by
  constructor
  · intro h
    rw [← splitOn_keyOfParts hp, ← splitOn_keyOfParts hq, h]
  · intro h
    unfold withoutSuffix at h
    rw [keyOfParts, keyOfParts, h]

/-- The artifact lies as deep below the build directory as the source below the root. -/
theorem artifact_keyOfParts {parts : List String} (h : Path.IsPlain parts) (build : Path) :
    artifact build (keyOfParts parts) = ⟨build.anchor, build.parts ++ parts.dropLast ++
      [Path.stem (parts.getLastD "") ++ Artifact.suffix]⟩ := by
  have hkept : parts.dropLast.filter Path.isPart = parts.dropLast :=
    List.filter_eq_self.mpr fun part hpart => (h.part part (List.dropLast_subset _ hpart)).isPart
  simp only [artifact, splitOn_keyOfParts h, withoutSuffix, List.dropLast_concat, hkept,
    List.getLastD_concat]

theorem artifact_eq_iff {ps qs : List String} (hp : Path.IsPlain ps) (hq : Path.IsPlain qs)
    (build : Path) : artifact build (keyOfParts ps) = artifact build (keyOfParts qs) ↔
      keyOfParts ps = keyOfParts qs := by
  refine ⟨fun h => ?_, fun h => h ▸ rfl⟩
  rw [artifact_keyOfParts hp, artifact_keyOfParts hq, Path.mk.injEq, List.append_assoc,
    List.append_assoc] at h
  obtain ⟨hfront, hlast⟩ := List.append_inj' (List.append_cancel_left h.2) rfl
  rw [keyOfParts_eq_iff hp hq, withoutSuffix, withoutSuffix, hfront]
  have hstem := List.singleton_inj.mp hlast
  rw [← String.toList_inj, String.toList_append, String.toList_append] at hstem
  rw [String.toList_inj.mp (List.append_cancel_right hstem)]

end Compile

end GraphQLDoc
