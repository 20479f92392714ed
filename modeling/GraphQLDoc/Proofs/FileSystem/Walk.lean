import GraphQLDoc.Proofs.FileSystem.Links
import Mathlib.Data.List.Basic

/-!
Walks as relations. Going over components from a place comes by places and leads to one, whether or
not anything is there; links are followed. A walk of the file system goes the same way as long as it
finds directories, so that its end is the end of the path, and nothing matters but what stands at the
places that it comes by.
-/
namespace GraphQLDoc.FileSystem

variable {fs gs : FileSystem} {followLast : Bool}

/-- Where a path starts when it is seen from a place. -/
def startFrom (place : List String) (p : Path) : List String := if p.isAbsolute then [] else place

/-- The place that a path starts at. -/
def start (fs : FileSystem) (p : Path) : List String := startFrom fs.workingDirectory p

/-- Going over components from a place leads to `q` after a number of links. -/
inductive Leads (fs : FileSystem) (q : List String) : Nat → List String → List String → Prop where
  | done : Leads fs q 0 q []
  | up {links : Nat} {place rest : List String} (h : Leads fs q links place.dropLast rest) :
      Leads fs q links place (".." :: rest)
  | on {links : Nat} {place rest : List String} {part : String} (hpart : part ≠ "..")
      (hlink : ¬ fs.IsLink (place ++ [part])) (h : Leads fs q links (place ++ [part]) rest) :
      Leads fs q links place (part :: rest)
  | link {links : Nat} {place rest : List String} {part target : String} (hpart : part ≠ "..")
      (hlink : fs.node? (place ++ [part]) = some (.link target))
      (h : Leads fs q links (startFrom place (.ofString target))
        ((Path.ofString target).parts ++ rest)) :
      Leads fs q (links + 1) place (part :: rest)

/-- Going over components from a place comes by `q`. -/
inductive Visits (fs : FileSystem) (q : List String) : List String → List String → Prop where
  | here (parts : List String) : Visits fs q q parts
  | up {place rest : List String} (h : Visits fs q place.dropLast rest) :
      Visits fs q place (".." :: rest)
  | next {place rest : List String} {part : String} (hpart : part ≠ "..")
      (hnext : place ++ [part] = q) : Visits fs q place (part :: rest)
  | on {place rest : List String} {part : String} (hpart : part ≠ "..")
      (hlink : ¬ fs.IsLink (place ++ [part])) (h : Visits fs q (place ++ [part]) rest) :
      Visits fs q place (part :: rest)
  | link {place rest : List String} {part target : String} (hpart : part ≠ "..")
      (hlink : fs.node? (place ++ [part]) = some (.link target))
      (h : Visits fs q (startFrom place (.ofString target))
        ((Path.ofString target).parts ++ rest)) :
      Visits fs q place (part :: rest)

/-- A path really leads to a place. -/
def LeadsTo (fs : FileSystem) (p : Path) (q : List String) : Prop :=
  p.hasNull = false ∧ ∃ links, fs.Leads q links (fs.start p) p.parts

/-- A path comes by a place. -/
def ComesBy (fs : FileSystem) (p : Path) (q : List String) : Prop :=
  fs.Visits q (fs.start p) p.parts

/-- A path is not longer than a path may be, and no name that it leads over longer than a name. -/
structure HasShortNames (fs : FileSystem) (p : Path) : Prop where
  path : p.text.utf8ByteSize ≤ maxPathBytes
  name : ∀ place name, fs.ComesBy p (place ++ [name]) → name.utf8ByteSize ≤ maxNameBytes

theorem refusal?_eq_none {p : Path} :
    refusal? p = none ↔ p.hasNull = false ∧ p.text.utf8ByteSize ≤ maxPathBytes := by
  unfold refusal?
  split
  · simp_all
  · split
    · simp_all
    · simp_all

theorem not_isLink {place : List String} (h : ∀ target, fs.node? place ≠ some (.link target)) :
    ¬ fs.IsLink place :=
  fun ⟨target, htarget⟩ => h target htarget

namespace Leads

variable {q r place parts more : List String} {links links' : Nat}

/-- Components lead to one place. -/
theorem unique (h : fs.Leads q links place parts) (h' : fs.Leads r links' place parts) :
    q = r ∧ links = links' := by
  induction h generalizing links' with
  | done =>
    cases h'
    exact ⟨rfl, rfl⟩
  | up h ih =>
    cases h' with
    | up h' => exact ih h'
    | on hpart => exact absurd rfl hpart
    | link hpart => exact absurd rfl hpart
  | on hpart hlink h ih =>
    cases h' with
    | up => exact absurd rfl hpart
    | on _ _ h' => exact ih h'
    | link _ hlink' => exact absurd ⟨_, hlink'⟩ hlink
  | link hpart hlink h ih =>
    cases h' with
    | up => exact absurd rfl hpart
    | on _ hlink' => exact absurd ⟨_, hlink⟩ hlink'
    | link _ hlink' h' =>
      obtain rfl := FileNode.link.inj (Option.some.inj (hlink.symm.trans hlink'))
      obtain ⟨rfl, rfl⟩ := ih h'
      exact ⟨rfl, rfl⟩

theorem append (h : fs.Leads q links place parts) (h' : fs.Leads r links' q more) :
    fs.Leads r (links + links') place (parts ++ more) := by
  induction h with
  | done => simpa using h'
  | up _ ih => exact .up ih
  | on hpart hlink _ ih => exact .on hpart hlink ih
  | link hpart hlink _ ih =>
    rw [Nat.add_right_comm]
    exact .link hpart hlink (by rwa [List.append_assoc] at ih)

/-- What leads on over more components leads over the first ones. -/
theorem split {parts more : List String} (h : fs.Leads q links place (parts ++ more)) :
    ∃ r first second, fs.Leads r first place parts ∧ fs.Leads q second r more ∧
      links = first + second := by
  generalize hall : parts ++ more = all at h
  induction h generalizing parts with
  | done =>
    obtain ⟨rfl, rfl⟩ := List.append_eq_nil_iff.mp hall
    exact ⟨q, 0, 0, .done, .done, rfl⟩
  | @up links place rest h ih =>
    cases parts with
    | nil =>
      rw [List.nil_append] at hall
      exact ⟨place, 0, links, .done, hall ▸ .up h, (Nat.zero_add _).symm⟩
    | cons part parts =>
      obtain ⟨rfl, rfl⟩ := List.cons.inj hall
      obtain ⟨r, first, second, hfirst, hsecond, rfl⟩ := ih rfl
      exact ⟨r, first, second, .up hfirst, hsecond, rfl⟩
  | @on links place rest part hpart hlink h ih =>
    cases parts with
    | nil =>
      rw [List.nil_append] at hall
      exact ⟨place, 0, links, .done, hall ▸ .on hpart hlink h, (Nat.zero_add _).symm⟩
    | cons part' parts =>
      obtain ⟨rfl, rfl⟩ := List.cons.inj hall
      obtain ⟨r, first, second, hfirst, hsecond, rfl⟩ := ih rfl
      exact ⟨r, first, second, .on hpart hlink hfirst, hsecond, rfl⟩
  | @link links place rest part target hpart hlink h ih =>
    cases parts with
    | nil =>
      rw [List.nil_append] at hall
      exact ⟨place, 0, links + 1, .done, hall ▸ .link hpart hlink h, (Nat.zero_add _).symm⟩
    | cons part' parts =>
      obtain ⟨rfl, rfl⟩ := List.cons.inj hall
      obtain ⟨r, first, second, hfirst, hsecond, rfl⟩ := ih (List.append_assoc ..)
      exact ⟨r, first + 1, second, .link hpart hlink hfirst, hsecond, Nat.add_right_comm ..⟩

theorem visits (h : fs.Leads q links place parts) : fs.Visits q place parts := by
  induction h with
  | done => exact .here []
  | up _ ih => exact .up ih
  | on hpart hlink _ ih => exact .on hpart hlink ih
  | link hpart hlink _ ih => exact .link hpart hlink ih

/-- Names below a place where there are no links. -/
theorem names {names : List String} (hnames : ∀ name ∈ names, name ≠ "..")
    (hlinks : ∀ before, before ≠ [] → before <+: names → ¬ fs.IsLink (place ++ before)) :
    fs.Leads (place ++ names) 0 place names := by
  induction names generalizing place with
  | nil => exact (List.append_nil place).symm ▸ .done
  | cons name names ih =>
    obtain ⟨hname, hnames⟩ := List.forall_mem_cons.mp hnames
    refine .on hname (hlinks [name] (List.cons_ne_nil _ _) ⟨names, rfl⟩) ?_
    rw [List.append_cons]
    refine ih hnames fun before _ hbefore => ?_
    rw [← List.append_cons]
    exact hlinks _ (List.cons_ne_nil _ _) (List.cons_prefix_cons.mpr ⟨rfl, hbefore⟩)

end Leads

namespace Visits

variable {q place parts : List String}

/-- More components come by more places. -/
theorem append (h : fs.Visits q place parts) (more : List String) :
    fs.Visits q place (parts ++ more) := by
  induction h with
  | here => exact .here _
  | up _ ih => exact .up ih
  | next hpart hnext => exact .next hpart hnext
  | on hpart hlink _ ih => exact .on hpart hlink ih
  | link hpart hlink _ ih => exact .link hpart hlink (by rwa [List.append_assoc] at ih)

/-- Behind the end of a path. -/
theorem behind {r more : List String} {links : Nat} (h : fs.Leads r links place parts)
    (h' : fs.Visits q r more) : fs.Visits q place (parts ++ more) := by
  induction h with
  | done => exact h'
  | up _ ih => exact .up ih
  | on hpart hlink _ ih => exact .on hpart hlink ih
  | link hpart hlink _ ih => exact .link hpart hlink (by rwa [List.append_assoc] at ih)

/-- More components come by what the first ones come by, and by what the others come by from there. -/
theorem split {r more : List String} {links : Nat} (h : fs.Leads r links place parts)
    (h' : fs.Visits q place (parts ++ more)) : fs.Visits q place parts ∨ fs.Visits q r more := by
  induction h with
  | done => exact .inr h'
  | up _ ih =>
    cases h' with
    | here => exact .inl (.here _)
    | up h' => exact (ih h').imp_left .up
    | next hpart => exact absurd rfl hpart
    | on hpart => exact absurd rfl hpart
    | link hpart => exact absurd rfl hpart
  | on hpart hlink _ ih =>
    cases h' with
    | here => exact .inl (.here _)
    | up => exact absurd rfl hpart
    | next _ hnext => exact .inl (.next hpart hnext)
    | on _ _ h' => exact (ih h').imp_left (.on hpart hlink)
    | link _ hlink' => exact absurd ⟨_, hlink'⟩ hlink
  | @link links place rest part target hpart hlink _ ih =>
    cases h' with
    | here => exact .inl (.here _)
    | up => exact absurd rfl hpart
    | next _ hnext => exact .inl (.next hpart hnext)
    | on _ hlink' => exact absurd ⟨_, hlink⟩ hlink'
    | link _ hlink' h' =>
      obtain rfl := FileNode.link.inj (Option.some.inj (hlink.symm.trans hlink'))
      have hrest : fs.Visits q (startFrom place (.ofString target))
          ((Path.ofString target).parts ++ rest ++ more) := by rwa [List.append_assoc]
      exact (ih hrest).imp_left (.link hpart hlink)

/-- Names come by no more than what stands in front of their ends. -/
theorem of_names {names : List String} (hnames : ∀ name ∈ names, name ≠ "..")
    (hlinks : ∀ before, before ≠ [] → before <+: names → ¬ fs.IsLink (place ++ before))
    (h : fs.Visits q place names) : ∃ before, before <+: names ∧ q = place ++ before := by
  induction names generalizing place with
  | nil =>
    cases h
    exact ⟨[], List.prefix_refl _, (List.append_nil _).symm⟩
  | cons name names ih =>
    obtain ⟨hname, hnames⟩ := List.forall_mem_cons.mp hnames
    have hlink : ¬ fs.IsLink (place ++ [name]) := hlinks _ (List.cons_ne_nil _ _) ⟨names, rfl⟩
    cases h with
    | here => exact ⟨[], List.nil_prefix, (List.append_nil _).symm⟩
    | up => exact absurd rfl hname
    | next _ hnext => exact ⟨[name], ⟨names, rfl⟩, hnext.symm⟩
    | on _ _ h =>
      obtain ⟨before, hbefore, rfl⟩ := ih hnames (fun before _ hbefore => by
        rw [← List.append_cons]
        exact hlinks _ (List.cons_ne_nil _ _) (List.cons_prefix_cons.mpr ⟨rfl, hbefore⟩)) h
      exact ⟨name :: before, List.cons_prefix_cons.mpr ⟨rfl, hbefore⟩,
        (List.append_cons _ _ _).symm⟩
    | link _ hlink' => exact absurd ⟨_, hlink'⟩ hlink

end Visits

/-! The same links. -/

theorem KeepsLinks.symm (h : KeepsLinks fs gs) : KeepsLinks gs fs :=
  ⟨h.workingDirectory.symm, fun place target => (h.link place target).symm⟩

theorem KeepsLinks.start_eq (h : KeepsLinks fs gs) (p : Path) : gs.start p = fs.start p := by
  rw [start, start, h.workingDirectory]

theorem Leads.of_keepsLinks (h : KeepsLinks fs gs) {q place parts : List String} {links : Nat}
    (hleads : fs.Leads q links place parts) : gs.Leads q links place parts := by
  induction hleads with
  | done => exact .done
  | up _ ih => exact .up ih
  | on hpart hlink _ ih => exact .on hpart (fun hgs => hlink ((h.isLink _).mp hgs)) ih
  | link hpart hlink _ ih => exact .link hpart ((h.link _ _).mpr hlink) ih

theorem Visits.of_keepsLinks (h : KeepsLinks fs gs) {q place parts : List String}
    (hvisits : fs.Visits q place parts) : gs.Visits q place parts := by
  induction hvisits with
  | here => exact .here _
  | up _ ih => exact .up ih
  | next hpart hnext => exact .next hpart hnext
  | on hpart hlink _ ih => exact .on hpart (fun hgs => hlink ((h.isLink _).mp hgs)) ih
  | link hpart hlink _ ih => exact .link hpart ((h.link _ _).mpr hlink) ih

theorem KeepsLinks.leadsTo (h : KeepsLinks fs gs) {p : Path} {q : List String} :
    gs.LeadsTo p q ↔ fs.LeadsTo p q := by
  rw [LeadsTo, LeadsTo, h.start_eq]
  exact and_congr_right fun _ =>
    exists_congr fun _ => ⟨.of_keepsLinks h.symm, .of_keepsLinks h⟩

theorem KeepsLinks.comesBy (h : KeepsLinks fs gs) {p : Path} {q : List String} :
    gs.ComesBy p q ↔ fs.ComesBy p q := by
  rw [ComesBy, ComesBy, h.start_eq]
  exact ⟨.of_keepsLinks h.symm, .of_keepsLinks h⟩

theorem KeepsLinks.hasShortNames (h : KeepsLinks fs gs) {p : Path} :
    gs.HasShortNames p ↔ fs.HasShortNames p := by
  constructor
  · rintro ⟨hpath, hname⟩
    exact ⟨hpath, fun place name hcomes => hname place name (h.comesBy.mpr hcomes)⟩
  · rintro ⟨hpath, hname⟩
    exact ⟨hpath, fun place name hcomes => hname place name (h.comesBy.mp hcomes)⟩

/-! Where a walk ends. -/

theorem refusal?_ne_tooManyLinks (p : Path) : refusal? p ≠ some .tooManyLinks := by
  unfold refusal?
  split_ifs <;> simp


/-- The place of what is found. -/
def Found.place : Found → List String
  | .node place _ => place
  | .missing parent name => parent ++ [name]

/-- What is found is no link that was left alone. -/
def Found.IsEnd : Found → Prop
  | .node _ (.link _) => False
  | _ => True

theorem walkFrom_leads {follow : List String → List String → Except FileError Found}
    (hfollow : ∀ place parts found, follow place parts = .ok found →
      (followLast = true ∨ found.IsEnd) → ∃ links, fs.Leads found.place links place parts)
    {place parts : List String} {found : Found}
    (h : walkFrom fs followLast follow place parts = .ok found)
    (hend : followLast = true ∨ found.IsEnd) : ∃ links, fs.Leads found.place links place parts := by
  fun_induction walkFrom with
  | case1 place n hn => exact Except.ok.inj h ▸ ⟨0, .done⟩
  | case2 => cases h
  | case3 place rest ih => exact (ih h).imp fun _ => .up
  | case4 => cases h
  | case5 place part rest hdots hname next hnone hrest =>
    obtain rfl := List.isEmpty_iff.mp hrest
    exact Except.ok.inj h ▸ ⟨0, .on hdots (not_isLink fun _ => by simp [next, hnone]) .done⟩
  | case6 => cases h
  | case7 place part rest hdots hname next time hnext ih =>
    exact (ih h).imp fun _ => .on hdots (not_isLink fun _ => by simp [next, hnext])
  | case8 place part rest hdots hname next bytes time hnext hrest =>
    obtain rfl := List.isEmpty_iff.mp hrest
    exact Except.ok.inj h ▸ ⟨0, .on hdots (not_isLink fun _ => by simp [next, hnext]) .done⟩
  | case9 => cases h
  | case10 place part rest hdots hname next target hnext hlast =>
    -- a link that is left alone is only found where the last component is not followed
    obtain rfl := Except.ok.inj h
    rcases hend with rfl | hend
    · simp at hlast
    · exact hend.elim
  | case11 place part rest hdots hname next target hnext hlast p =>
    obtain ⟨links, hleads⟩ := hfollow _ _ _ h hend
    exact ⟨links + 1, .link hdots hnext hleads⟩

theorem walkWithin_leads {links : Nat} {place parts : List String} {found : Found}
    (h : walkWithin fs followLast links place parts = .ok found)
    (hend : followLast = true ∨ found.IsEnd) :
    ∃ followed, fs.Leads found.place followed place parts := by
  induction links generalizing place parts found with
  | zero =>
    refine walkFrom_leads (fun _ _ found hfollow _ => ?_) h hend
    exact nomatch (hfollow : Except.error FileError.tooManyLinks = .ok found)
  | succ links ih => exact walkFrom_leads (fun _ _ _ h hend => ih h hend) h hend

theorem find_leadsTo {p : Path} {found : Found} (h : fs.find followLast p = .ok found)
    (hend : followLast = true ∨ found.IsEnd) : fs.LeadsTo p found.place := by
  unfold find at h
  split at h
  · exact nomatch h
  · rename_i hnone
    exact ⟨(refusal?_eq_none.mp hnone).1, walkWithin_leads h hend⟩

/-- What is found is at the end of a path that is not too long. -/
theorem refusal?_of_find {p : Path} {found : Found} (h : fs.find followLast p = .ok found) :
    refusal? p = none := by
  unfold find at h
  split at h
  · exact nomatch h
  · assumption

theorem LeadsTo.comesBy {p : Path} {q : List String} (h : fs.LeadsTo p q) : fs.ComesBy p q :=
  h.2.elim fun _ hleads => hleads.visits

theorem LeadsTo.unique {p : Path} {q r : List String} (h : fs.LeadsTo p q) (h' : fs.LeadsTo p r) :
    q = r := by
  obtain ⟨_, _, hq⟩ := h
  obtain ⟨_, _, hr⟩ := h'
  exact (hq.unique hr).1

/-! What a walk depends on. -/

/-- The same but for times, and for the content of files. -/
inductive SameKind : Option FileNode → Option FileNode → Prop where
  | none : SameKind none none
  | file {bytes bytes' : List UInt8} {time time' : Int} :
      SameKind (some (.file bytes time)) (some (.file bytes' time'))
  | directory {time time' : Int} : SameKind (some (.directory time)) (some (.directory time'))
  | link {target : String} : SameKind (some (.link target)) (some (.link target))

/-- The same end, where the node may have changed. -/
inductive SameEnd : Except FileError Found → Except FileError Found → Prop where
  | error (e : FileError) : SameEnd (.error e) (.error e)
  | missing (parent : List String) (name : String) :
      SameEnd (.ok (.missing parent name)) (.ok (.missing parent name))
  | node (place : List String) (n n' : FileNode) :
      SameEnd (.ok (.node place n)) (.ok (.node place n'))

theorem SameKind.rfl : (n : Option FileNode) → SameKind n n
  | .none => .none
  | some (.file _ _) => .file
  | some (.directory _) => .directory
  | some (.link _) => .link

theorem SameKind.trans {n n' n'' : Option FileNode} (h : SameKind n n') (h' : SameKind n' n'') :
    SameKind n n'' := by
  cases h with
  | none | link => exact h'
  | file =>
    cases h'
    exact .file
  | directory =>
    cases h'
    exact .directory

theorem walkFrom_sameEnd {follow follow' : List String → List String → Except FileError Found}
    (hfollow : ∀ place parts,
      (∀ q, fs.Visits q place parts → SameKind (fs.node? q) (gs.node? q)) →
      SameEnd (follow place parts) (follow' place parts))
    {place parts : List String}
    (h : ∀ q, fs.Visits q place parts → SameKind (fs.node? q) (gs.node? q)) :
    SameEnd (walkFrom fs followLast follow place parts)
      (walkFrom gs followLast follow' place parts) := by
  induction parts generalizing place with
  | nil =>
    have hkind := h place (.here _)
    rw [walkFrom, walkFrom]
    generalize fs.node? place = n, gs.node? place = n' at hkind
    cases hkind with
    | none => exact .error _
    | _ => exact .node _ _ _
  | cons part rest ih =>
    by_cases hdots : part = ".."
    · subst hdots
      rw [walkFrom, if_pos rfl, walkFrom, if_pos rfl]
      exact ih fun q hq => h q (.up hq)
    by_cases hname : maxNameBytes < part.utf8ByteSize
    · rw [walkFrom, if_neg hdots, if_pos hname, walkFrom, if_neg hdots, if_pos hname]
      exact .error _
    rw [walkFrom, if_neg hdots, if_neg hname, walkFrom, if_neg hdots, if_neg hname]
    dsimp only
    have hkind := h _ (.next hdots rfl)
    have hon (q : List String) (hlink : ¬ fs.IsLink (place ++ [part]))
        (hq : fs.Visits q (place ++ [part]) rest) := h q (.on hdots hlink hq)
    generalize hn : fs.node? (place ++ [part]) = n, gs.node? (place ++ [part]) = n' at hkind
    cases hkind with
    | none =>
      dsimp only
      split
      · exact .missing _ _
      · exact .error _
    | directory => exact ih fun q => hon q (not_isLink fun _ => by simp [hn])
    | file =>
      dsimp only
      split
      · exact .node _ _ _
      · exact .error _
    | link =>
      dsimp only
      split
      · exact .node _ _ _
      · exact hfollow _ _ fun q hq => h q (.link hdots hn hq)

theorem walkWithin_sameEnd {links : Nat} {place parts : List String}
    (h : ∀ q, fs.Visits q place parts → SameKind (fs.node? q) (gs.node? q)) :
    SameEnd (walkWithin fs followLast links place parts)
      (walkWithin gs followLast links place parts) := by
  induction links generalizing place parts with
  | zero => exact walkFrom_sameEnd (fun _ _ _ => .error _) h
  | succ links ih => exact walkFrom_sameEnd (fun _ _ h => ih h) h

/-- A path ends where it ended as long as what it comes by is of the same kind. -/
theorem find_sameEnd {p : Path} (hstart : gs.workingDirectory = fs.workingDirectory)
    (h : ∀ q, fs.ComesBy p q → SameKind (fs.node? q) (gs.node? q)) :
    SameEnd (fs.find followLast p) (gs.find followLast p) := by
  unfold find
  rw [hstart]
  split
  · exact .error _
  · exact walkWithin_sameEnd h

/-- The same but for the times of directories. -/
inductive SameContent : Option FileNode → Option FileNode → Prop where
  | same (n : Option FileNode) : SameContent n n
  | directory (time time' : Int) :
      SameContent (some (.directory time)) (some (.directory time'))

theorem SameContent.sameKind {n n' : Option FileNode} (h : SameContent n n') : SameKind n n' := by
  cases h with
  | same => exact .rfl n
  | directory => exact .directory

theorem SameContent.symm {n n' : Option FileNode} (h : SameContent n n') : SameContent n' n := by
  cases h with
  | same => exact .same n
  | directory => exact .directory _ _

theorem SameContent.trans {n n' n'' : Option FileNode} (h : SameContent n n')
    (h' : SameContent n' n'') : SameContent n n'' := by
  cases h with
  | same => exact h'
  | directory =>
    cases h' with
    | same => exact .directory _ _
    | directory => exact .directory _ _

/-- The same outcome of looking at the end of a path, up to the time of a directory. -/
inductive SameStat : Except FileError FileNode → Except FileError FileNode → Prop where
  | same (r : Except FileError FileNode) : SameStat r r
  | directory (time time' : Int) : SameStat (.ok (.directory time)) (.ok (.directory time'))

theorem stat_sameContent {p : Path} (hstart : gs.workingDirectory = fs.workingDirectory)
    (h : ∀ q, fs.ComesBy p q → SameContent (fs.node? q) (gs.node? q)) :
    SameStat (fs.stat p) (gs.stat p) := by
  have hend : SameEnd (fs.find true p) (gs.find true p) :=
    find_sameEnd hstart fun q hq => (h q hq).sameKind
  have hplace := @find_leadsTo fs true p
  have hfs := @find_isIn fs true p
  have hgs := @find_isIn gs true p
  unfold stat
  generalize fs.find true p = r, gs.find true p = r' at hend hplace hfs hgs
  cases hend with
  | error e => exact .same _
  | missing parent name => exact .same _
  | node q n n' =>
    -- the node at the end is one of those that the path comes by
    have hsame := h q (hplace rfl (.inl rfl)).comesBy
    rw [hfs rfl, hgs rfl] at hsame
    cases hsame with
    | same => exact .same _
    | directory => exact .directory _ _

/-- What is read does not depend on more than what the path comes by. -/
theorem read_eq {p : Path} (hstart : gs.workingDirectory = fs.workingDirectory)
    (h : ∀ q, fs.ComesBy p q → SameContent (fs.node? q) (gs.node? q)) : gs.read p = fs.read p := by
  have hstat := stat_sameContent hstart h
  unfold read
  generalize fs.stat p = r, gs.stat p = r' at hstat
  cases hstat <;> rfl

end GraphQLDoc.FileSystem
