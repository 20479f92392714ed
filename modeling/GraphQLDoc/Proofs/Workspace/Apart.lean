import GraphQLDoc.Proofs.FileSystem.Tree
import GraphQLDoc.Proofs.Workspace.Saved
import Mathlib.Data.Set.Basic

/-!
Sources outside of the build directory. Their artifacts lie below it, each at a place of its own, to
which names lead without a link.
-/
namespace GraphQLDoc.Compile

open FileSystem

/-! Artifacts below the build directory. -/

/-- The names that lead from the build directory to an artifact. -/
def artifactNames (parts : List String) : List String :=
  parts.dropLast ++ [Path.stem (parts.getLastD "") ++ Artifact.suffix]

theorem artifact_eq_below {parts : List String} (h : Path.IsPlain parts) (build : Path) :
    artifact build (keyOfParts parts) = build.below (artifactNames parts) := by
  rw [artifact_keyOfParts h, Path.below, artifactNames, List.append_assoc]

theorem artifactNames_ne_nil (parts : List String) : artifactNames parts ≠ [] := by
  simp [artifactNames]

theorem artifactNames_dots {parts : List String} (h : ".." ∉ parts) :
    ∀ name ∈ artifactNames parts, name ≠ ".." := by
  intro name hname hdots
  subst hdots
  rcases List.mem_append.mp hname with hname | hname
  · exact h (List.dropLast_subset _ hname)
  · have hlength := congrArg (fun s => s.toList.length) (List.mem_singleton.mp hname)
    simp only [String.toList_append, List.length_append] at hlength
    have htwo : "..".toList.length = 2 := rfl
    have hsuffix : Artifact.suffix.toList.length = 13 := rfl
    omega

/-- Sources whose artifacts are apart from them and from each other. -/
structure IsApart (fs : FileSystem) (root build : Path) (sources : Set Path) : Prop where
  sound : fs.IsSound
  /-- No name has a backslash. -/
  plain : ∀ s ∈ sources, ∀ p q parts, fs.resolve s = .ok p → fs.resolve root = .ok q →
    q.behind? p = some parts → ∀ part ∈ parts, Path.IsPlainPart part
  /-- No source is in the build directory. -/
  outside : ∀ s ∈ sources, ∀ b r, fs.LeadsTo build b → fs.LeadsTo s r → ¬ IsBelow b r
  /-- No link is in the build directory on the path of an artifact. -/
  unlinked : ∀ s ∈ sources, ∀ k b q, key fs root s = .ok k → fs.LeadsTo build b →
    fs.ComesBy (artifact build k) q → IsBelow b q → ¬ fs.IsLink q

/-- No artifact is in the place of a directory on the path of another one. -/
def HasClearWays (fs : FileSystem) (root build : Path) (sources : Set Path) : Prop :=
  ∀ s ∈ sources, ∀ t ∈ sources, ∀ k l, key fs root s = .ok k → key fs root t = .ok l → k ≠ l →
    ∀ q, fs.LeadsTo (artifact build k) q → ¬ fs.ComesBy (artifact build l).parent q

/-- A source with its key. -/
def HasKey (start : FileSystem) (root : Path) (sources : Set Path) (s : Path) (k : String) : Prop :=
  s ∈ sources ∧ key start root s = .ok k

/-- The place of an artifact. -/
def IsArtifactAt (start : FileSystem) (root build : Path) (sources : Set Path) (k : String)
    (place : List String) : Prop :=
  (∃ s, HasKey start root sources s k) ∧ start.LeadsTo (artifact build k) place

/-- The place of a directory on the way to an artifact. -/
def IsArtifactWay (start : FileSystem) (root build : Path) (sources : Set Path)
    (q : List String) : Prop :=
  ∃ s k, HasKey start root sources s k ∧ start.ComesBy (artifact build k).parent q

variable {start fs : FileSystem} {root build s : Path} {sources more : Set Path} {k l : String}
  {b q r place : List String}

theorem below_ne {before front : List String} {last : String} (hbefore : before <+: front) :
    b ++ before ≠ b ++ (front ++ [last]) := by
  intro heq
  have heq := congrArg List.length (List.append_cancel_left heq)
  have hle := hbefore.length_le
  simp only [List.length_append, List.length_singleton] at heq
  omega

theorem HasKey.mono (h : HasKey start root sources s k) (hmore : sources ⊆ more) :
    HasKey start root more s k :=
  ⟨hmore h.1, h.2⟩

/-- The components below the root that a key is made of. -/
theorem exists_parts_of_key (hk : key start root s = .ok k) : ∃ p q parts,
    start.resolve s = .ok p ∧ start.resolve root = .ok q ∧ q.behind? p = some parts ∧
      parts ≠ [] ∧ ".." ∉ parts ∧ k = keyOfParts parts := by
  unfold key at hk
  split at hk
  case h_5 p q hp hq =>
    split at hk
    · cases hk
    · cases hk
    · rename_i parts hne hparts
      refine ⟨p, q, parts, hp, hq, hparts, hne, fun hdots => ?_, (Except.ok.inj hk).symm⟩
      obtain ⟨-, hreal, -⟩ := resolve_eq_ok_iff.mp hp
      have hmem : ".." ∈ p.parts := by
        rw [Path.eq_of_behind? hparts]
        exact List.mem_append_right _ hdots
      rw [← hreal] at hmem
      exact dots_notMem_dropDots _ hmem
  all_goals cases hk

/-- Where the places are known that the source and the root lead to, the key stays as it is. -/
theorem key_eq_of_leadsTo (hlinks : KeepsLinks start fs) (hstart : start.IsSound)
    (hsound : fs.IsSound) (hs : start.LeadsTo s r) (hroot : start.LeadsTo root q) :
    key fs root s = key start root s := by
  unfold key
  rw [hsound.resolve_of_leadsTo (hlinks.leadsTo.mpr hs),
    hsound.resolve_of_leadsTo (hlinks.leadsTo.mpr hroot), hstart.resolve_of_leadsTo hs,
    hstart.resolve_of_leadsTo hroot]

namespace IsApart

variable (h : IsApart start root build sources)
include h

theorem mono (hmore : more ⊆ sources) : IsApart start root build more where
  sound := h.sound
  plain s hs := h.plain s (hmore hs)
  outside s hs := h.outside s (hmore hs)
  unlinked s hs := h.unlinked s (hmore hs)

theorem exists_parts (hk : HasKey start root sources s k) : ∃ parts, Path.IsPlain parts ∧
    k = keyOfParts parts ∧ (∀ name ∈ artifactNames parts, name ≠ "..") ∧
      ∀ b, start.LeadsTo build b → start.AreLinkFree b (artifactNames parts) := by
  obtain ⟨p, q, parts, hp, hq, hparts, hne, hdots, rfl⟩ := exists_parts_of_key hk.2
  have hplain : Path.IsPlain parts := ⟨hne, h.plain s hk.1 p q parts hp hq hparts⟩
  refine ⟨parts, hplain, rfl, artifactNames_dots hdots, fun b hb => ?_⟩
  refine areLinkFree_of_visits (artifactNames_dots hdots) fun v hv hbelow => ?_
  refine h.unlinked s hk.1 _ b v hk.2 hb ?_ hbelow
  obtain ⟨-, links, hleads⟩ := hb
  rw [artifact_eq_below hplain]
  exact Visits.behind hleads hv

/-- An artifact is below the build directory. -/
theorem artifact_below (hplace : IsArtifactAt start root build sources k place) :
    ∃ b names, start.LeadsTo build b ∧ names ≠ [] ∧ (∀ name ∈ names, name ≠ "..") ∧
      start.AreLinkFree b names ∧ artifact build k = build.below names ∧ place = b ++ names := by
  obtain ⟨⟨s, hk⟩, hleads⟩ := hplace
  obtain ⟨parts, hplain, rfl, hdots, hlinks⟩ := h.exists_parts hk
  rw [artifact_eq_below hplain] at hleads ⊢
  obtain ⟨b, hb, rfl⟩ := hleads.of_below hdots hlinks
  exact ⟨b, artifactNames parts, hb, artifactNames_ne_nil parts, hdots, hlinks b hb, rfl, rfl⟩

theorem artifact_isBelow (hplace : IsArtifactAt start root build sources k place)
    (hb : start.LeadsTo build b) : IsBelow b place := by
  obtain ⟨b', names, hb', hne, -, -, -, rfl⟩ := h.artifact_below hplace
  exact ⟨names, hne, by rw [hb.unique hb']⟩

/-- Different keys have different artifacts. -/
theorem artifact_unique (hk : IsArtifactAt start root build sources k place)
    (hl : IsArtifactAt start root build sources l place) : k = l := by
  obtain ⟨⟨s, hs⟩, hplace⟩ := hk
  obtain ⟨⟨t, ht⟩, hplace'⟩ := hl
  obtain ⟨ps, hps, rfl, hdots, hlinks⟩ := h.exists_parts hs
  obtain ⟨qs, hqs, rfl, hdots', hlinks'⟩ := h.exists_parts ht
  rw [artifact_eq_below hps] at hplace
  rw [artifact_eq_below hqs] at hplace'
  obtain ⟨b, hb, rfl⟩ := hplace.of_below hdots hlinks
  obtain ⟨b', hb', heq⟩ := hplace'.of_below hdots' hlinks'
  obtain rfl := hb.unique hb'
  have hnames := List.append_cancel_left heq
  exact (artifact_eq_iff hps hqs build).mp (by
    rw [artifact_eq_below hps, artifact_eq_below hqs, hnames])

theorem source_ne (hs : s ∈ sources) (hr : start.LeadsTo s r)
    (hplace : IsArtifactAt start root build sources k place) : r ≠ place := by
  rintro rfl
  obtain ⟨b, names, hb, hne, -, -, -, heq⟩ := h.artifact_below hplace
  exact h.outside s hs b r hb hr ⟨names, hne, heq⟩

end IsApart

/-- Without links it is enough to look at the places that paths spell out. -/
theorem isApart_of_hasNoLinks (hsound : start.IsSound) (hlinks : start.HasNoLinks)
    (hplain : ∀ s ∈ sources, ∀ parts, start.placeOf s = start.placeOf root ++ parts →
      ∀ part ∈ parts, Path.IsPlainPart part)
    (houtside : ∀ s ∈ sources, ¬ IsBelow (start.placeOf build) (start.placeOf s)) :
    IsApart start root build sources where
  sound := hsound
  plain s hs p q parts hp hq hparts := by
    have hreal {t p : Path} (ht : start.resolve t = .ok p) : p = .absolute (start.placeOf t) := by
      have hnull := (resolve_eq_ok_iff.mp ht).1
      have hleads := hsound.resolve_of_leadsTo (hlinks.leadsTo_iff.mpr ⟨hnull, rfl⟩)
      exact Except.ok.inj (ht.symm.trans hleads)
    have heq := Path.eq_of_behind? hparts
    rw [hreal hp, hreal hq] at heq
    exact hplain s hs parts (congrArg Path.parts heq)
  outside s hs b r hb hr := by
    rw [(hlinks.leadsTo_iff.mp hb).2, (hlinks.leadsTo_iff.mp hr).2]
    exact houtside s hs
  unlinked _ _ _ _ q _ _ _ _ := hlinks q

/-- Artifacts at one depth are in no way of each other where there are no links. -/
theorem hasClearWays_of_length (hlinks : start.HasNoLinks) {n : Nat}
    (hsources : ∀ s ∈ sources, ∀ k, key start root s = .ok k →
      (artifact build k).parts.length = n ∧ ".." ∉ (artifact build k).parts) :
    HasClearWays start root build sources := by
  intro s hs t ht k l hk hl _ q hq hcomes
  obtain ⟨hlength, hdots⟩ := hsources s hs k hk
  obtain ⟨hlength', hdots'⟩ := hsources t ht l hl
  obtain ⟨before, hbefore, heq⟩ := hlinks.comesBy_iff.mp hcomes
  have hfront : before ⊆ (artifact build l).parts :=
    List.Subset.trans hbefore.subset (List.dropLast_subset _)
  rw [(hlinks.leadsTo_iff.mp hq).2, placeOf, goFrom_eq_append hdots,
    goFrom_eq_append fun h => hdots' (hfront h)] at heq
  have hstart : start.start (artifact build l).parent = start.start (artifact build k) := rfl
  have hle := hbefore.length_le
  have hlast : (artifact build l).parent.parts.length = n - 1 := by
    rw [← hlength', Path.parent, List.length_dropLast]
  have hpos : 0 < (artifact build k).parts.length := by simp [artifact]
  have hsame := congrArg List.length heq
  simp only [hstart, List.length_append] at hsame
  omega

end GraphQLDoc.Compile
