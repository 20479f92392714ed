import GraphQLDoc.Proofs.FileSystem.Real

/-!
File systems without links. There a path leads to the place that its components spell out.
-/
namespace GraphQLDoc.FileSystem

variable {fs gs : FileSystem} {place parts q : List String} {links : Nat} {p : Path}

/-- The place behind a place that components spell out. -/
def goFrom (place parts : List String) : List String :=
  parts.foldl (fun done part => if part = ".." then done.dropLast else done ++ [part]) place

theorem goFrom_cons (place : List String) (part : String) (rest : List String) :
    goFrom place (part :: rest) =
      goFrom (if part = ".." then place.dropLast else place ++ [part]) rest := rfl

theorem goFrom_eq_append (h : ".." ∉ parts) : goFrom place parts = place ++ parts := by
  induction parts generalizing place with
  | nil => exact (List.append_nil place).symm
  | cons part rest ih =>
    obtain ⟨hpart, hrest⟩ := not_or.mp (mt List.mem_cons.mpr h)
    rw [goFrom_cons, if_neg (Ne.symm hpart), ih hrest, List.append_assoc, List.singleton_append]

theorem mem_goFrom {name : String} (h : name ∈ goFrom place parts) : name ∈ place ++ parts := by
  induction parts generalizing place with
  | nil => rwa [List.append_nil]
  | cons part rest ih =>
    rw [goFrom_cons] at h
    split at h
    · rcases List.mem_append.mp (ih h) with hname | hname
      · exact List.mem_append_left _ (List.dropLast_subset _ hname)
      · exact List.mem_append_right _ (List.mem_cons_of_mem _ hname)
    · have hname := ih h
      rwa [List.append_assoc, List.singleton_append] at hname

/-- The place that a path spells out. -/
def placeOf (fs : FileSystem) (p : Path) : List String := goFrom (fs.start p) p.parts

/-- There are no links. -/
def HasNoLinks (fs : FileSystem) : Prop := ∀ q, ¬ fs.IsLink q

theorem hasNoLinks_of_nodes (h : ∀ e ∈ fs.nodes, ∀ target, e.2 ≠ .link target) : fs.HasNoLinks := by
  rintro q ⟨target, hq⟩
  exact h _ (IsLink.mem_nodes hq) target rfl

namespace HasNoLinks

variable (h : fs.HasNoLinks)
include h

theorem leads_iff : fs.Leads q links place parts ↔ links = 0 ∧ q = goFrom place parts := by
  constructor
  · intro hleads
    induction hleads with
    | done => exact ⟨rfl, rfl⟩
    | up _ ih => rwa [goFrom_cons, if_pos rfl]
    | on hpart _ _ ih => rwa [goFrom_cons, if_neg hpart]
    | link _ hlink => exact absurd ⟨_, hlink⟩ (h _)
  · rintro ⟨rfl, rfl⟩
    induction parts generalizing place with
    | nil => exact .done
    | cons part rest ih =>
      by_cases hpart : part = ".."
      · subst hpart
        exact .up ih
      · rw [goFrom_cons, if_neg hpart]
        exact .on hpart (h _) ih

theorem visits_iff : fs.Visits q place parts ↔
    ∃ before, before <+: parts ∧ q = goFrom place before := by
  constructor
  · intro hvisits
    induction hvisits with
    | here parts => exact ⟨[], List.nil_prefix, rfl⟩
    | up _ ih =>
      obtain ⟨before, hbefore, rfl⟩ := ih
      exact ⟨".." :: before, List.cons_prefix_cons.mpr ⟨rfl, hbefore⟩, rfl⟩
    | next hpart hnext =>
      refine ⟨[_], List.cons_prefix_cons.mpr ⟨rfl, List.nil_prefix⟩, ?_⟩
      rw [goFrom_cons, if_neg hpart, hnext]
      rfl
    | on hpart _ _ ih =>
      obtain ⟨before, hbefore, rfl⟩ := ih
      refine ⟨_ :: before, List.cons_prefix_cons.mpr ⟨rfl, hbefore⟩, ?_⟩
      rw [goFrom_cons, if_neg hpart]
    | link _ hlink => exact absurd ⟨_, hlink⟩ (h _)
  · rintro ⟨before, ⟨more, rfl⟩, rfl⟩
    exact Visits.append ((h.leads_iff.mpr ⟨rfl, rfl⟩).visits) more

theorem leadsTo_iff : fs.LeadsTo p q ↔ p.hasNull = false ∧ q = fs.placeOf p := by
  refine and_congr_right fun _ => ⟨fun ⟨_, hleads⟩ => (h.leads_iff.mp hleads).2, fun hq => ?_⟩
  exact ⟨0, h.leads_iff.mpr ⟨rfl, hq⟩⟩

theorem comesBy_iff : fs.ComesBy p q ↔
    ∃ before, before <+: p.parts ∧ q = goFrom (fs.start p) before :=
  h.visits_iff

theorem hasShortNames (hpath : p.text.utf8ByteSize ≤ maxPathBytes)
    (hnames : ∀ name ∈ fs.start p ++ p.parts, name.utf8ByteSize ≤ maxNameBytes) :
    fs.HasShortNames p := by
  refine ⟨hpath, fun place name hcomes => ?_⟩
  obtain ⟨before, hbefore, heq⟩ := h.comesBy_iff.mp hcomes
  have hname : name ∈ goFrom (fs.start p) before := heq ▸ List.mem_append_right place (by simp)
  rcases List.mem_append.mp (mem_goFrom hname) with hname | hname
  · exact hnames name (List.mem_append_left _ hname)
  · exact hnames name (List.mem_append_right _ (hbefore.subset hname))

end HasNoLinks

end GraphQLDoc.FileSystem
