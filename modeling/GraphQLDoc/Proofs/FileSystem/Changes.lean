import GraphQLDoc.Proofs.FileSystem.Real

/-!
What a change changes. Making directories adds directories that the path comes by, and writing a file
changes what stands at the end of its path; nothing else is made new, and a sound file system stays
sound.
-/
namespace GraphQLDoc.FileSystem

variable {fs gs hs : FileSystem} {followLast : Bool}

/-- A place under the making of directories: a directory may be changed now, and one may be made. -/
inductive Made (now : Int) (new : Prop) : Option FileNode → Option FileNode → Prop where
  | same (n : Option FileNode) : Made now new n n
  | touched (time : Int) : Made now new (some (.directory time)) (some (.directory now))
  | made (h : new) : Made now new none (some (.directory now))

theorem Made.mono {now : Int} {new new' : Prop} {n n' : Option FileNode} (h : Made now new n n')
    (hnew : new → new') : Made now new' n n' := by
  cases h with
  | same => exact .same _
  | touched => exact .touched _
  | made h => exact .made (hnew h)

theorem Made.trans {now : Int} {new : Prop} {n n' n'' : Option FileNode} (h : Made now new n n')
    (h' : Made now new n' n'') : Made now new n n'' := by
  cases h with
  | same => exact h'
  | touched =>
    cases h' <;> exact .touched _
  | made h =>
    cases h' <;> exact .made h

/-- Directories are made at some places, and nothing else is. -/
structure AddsDirectories (fs gs : FileSystem) (new : List String → Prop) : Prop where
  workingDirectory : gs.workingDirectory = fs.workingDirectory
  now : gs.now = fs.now
  node : ∀ q, Made fs.now (new q) (fs.node? q) (gs.node? q)

/-- What stood somewhere still does, perhaps changed. -/
structure Grows (fs gs : FileSystem) : Prop where
  workingDirectory : gs.workingDirectory = fs.workingDirectory
  node : ∀ q n, fs.node? q = some n → SameKind (some n) (gs.node? q)

namespace AddsDirectories

variable {new new' : List String → Prop}

theorem refl (fs : FileSystem) (new : List String → Prop) : AddsDirectories fs fs new :=
  ⟨rfl, rfl, fun _ => .same _⟩

theorem trans (h : AddsDirectories fs gs new) (h' : AddsDirectories gs hs new) :
    AddsDirectories fs hs new where
  workingDirectory := h'.workingDirectory.trans h.workingDirectory
  now := h'.now.trans h.now
  node q := (h.node q).trans (h.now ▸ h'.node q)

theorem mono (h : AddsDirectories fs gs new) (hnew : ∀ q, new q → new' q) :
    AddsDirectories fs gs new' :=
  ⟨h.workingDirectory, h.now, fun q => (h.node q).mono (hnew q)⟩

theorem grows (h : AddsDirectories fs gs new) : Grows fs gs where
  workingDirectory := h.workingDirectory
  node q n hn := by
    have hmade := h.node q
    rw [hn] at hmade
    generalize gs.node? q = n' at hmade
    cases hmade with
    | same => exact .rfl _
    | touched => exact .directory

end AddsDirectories

theorem Grows.isDirectoryAt (h : Grows fs gs) {q : List String} (hq : fs.IsDirectoryAt q) :
    gs.IsDirectoryAt q := by
  obtain ⟨time, htime⟩ := hq
  have hkind := h.node q _ htime
  unfold IsDirectoryAt
  generalize gs.node? q = n at hkind
  cases hkind
  exact ⟨_, rfl⟩

theorem Grows.trans (h : Grows fs gs) (h' : Grows gs hs) : Grows fs hs where
  workingDirectory := h'.workingDirectory.trans h.workingDirectory
  node q n hn := by
    have hkind := h.node q n hn
    generalize hm : gs.node? q = m at hkind
    cases hkind with
    | file =>
      have hkind' := h'.node q _ hm
      generalize hs.node? q = m' at hkind'
      cases hkind'
      exact .file
    | directory =>
      have hkind' := h'.node q _ hm
      generalize hs.node? q = m' at hkind'
      cases hkind'
      exact .directory
    | link =>
      exact h'.node q _ hm

/-! Nodes under one change. -/

theorem node?_nil (fs : FileSystem) : fs.node? [] = some (.directory fs.now) := if_pos rfl

theorem made_touch (fs : FileSystem) (place : List String) (new : List String → Prop) :
    AddsDirectories fs (fs.touch place) new := by
  unfold touch
  split
  · rename_i time htime
    split
    · exact .refl fs new
    · rename_i hplace
      refine ⟨rfl, rfl, fun q => ?_⟩
      rw [node?_setNode]
      by_cases hq : q = []
      · rw [if_pos hq, hq, node?_nil]
        exact .same _
      · rw [if_neg hq]
        by_cases hqp : q = place
        · rw [if_pos hqp, hqp, htime]
          exact .touched time
        · rw [if_neg hqp]
          exact .same _
  · exact .refl fs new

theorem node?_addNode (fs : FileSystem) (parent : List String) (name : String) (n : FileNode)
    (q : List String) : (fs.addNode parent name n).node? q =
      if q = parent ++ [name] then some n else (fs.touch parent).node? q := by
  rw [addNode, node?_setNode]
  by_cases hq : q = []
  · subst hq
    rw [if_pos rfl, if_neg (by simp), node?_nil]
  · rw [if_neg hq]

theorem addsDirectories_addNode {parent : List String} {name : String} {new : List String → Prop}
    (hfree : fs.node? (parent ++ [name]) = none) (hnew : new (parent ++ [name])) :
    AddsDirectories fs (fs.addNode parent name (.directory fs.now)) new := by
  have htouch := made_touch fs parent new
  refine ⟨htouch.workingDirectory, htouch.now, fun q => ?_⟩
  rw [node?_addNode]
  split
  · rename_i hq
    rw [hq, hfree]
    exact .made hnew
  · exact htouch.node q

/-! Sound file systems. -/

/-- Directories stay, and what is new stands in one. -/
theorem IsSound.of_nodes (h : fs.IsSound) (hworking : gs.workingDirectory = fs.workingDirectory)
    (hstay : ∀ q, fs.IsDirectoryAt q → gs.IsDirectoryAt q)
    (hnew : ∀ place name n, gs.node? (place ++ [name]) = some n →
      (∃ m, fs.node? (place ++ [name]) = some m) ∨ gs.IsDirectoryAt place ∧ IsEntryName name) :
    gs.IsSound where
  parent place name n hn := by
    rcases hnew place name n hn with ⟨m, hm⟩ | ⟨hplace, -⟩
    · exact hstay _ (h.parent _ _ _ hm)
    · exact hplace
  name place name n hn := by
    rcases hnew place name n hn with ⟨m, hm⟩ | ⟨-, hname⟩
    · exact h.name _ _ _ hm
    · exact hname
  working := hworking.symm ▸ hstay _ h.working

theorem grows_setNode {place : List String} {n : FileNode}
    (hkind : ∀ m, fs.node? place = some m → SameKind (some m) (some n)) :
    Grows fs (fs.setNode place n) where
  workingDirectory := rfl
  node q m hm := by
    rw [node?_setNode]
    by_cases hq : q = []
    · subst hq
      rw [if_pos rfl]
      obtain rfl := Option.some.inj ((node?_nil fs).symm.trans hm)
      exact .directory
    · rw [if_neg hq]
      split
      · rename_i hqp
        exact hkind m (hqp ▸ hm)
      · exact hm ▸ .rfl _

theorem IsSound.setNode (h : fs.IsSound) {place : List String} {m n : FileNode}
    (hm : fs.node? place = some m) (hkind : SameKind (some m) (some n)) :
    (fs.setNode place n).IsSound := by
  have hgrows : Grows fs (fs.setNode place n) :=
    grows_setNode fun m' hm' => Option.some.inj (hm.symm.trans hm') ▸ hkind
  refine h.of_nodes rfl (fun _ => hgrows.isDirectoryAt) fun q name n' hn' => .inl ?_
  rw [node?_setNode, if_neg (by simp)] at hn'
  split at hn'
  · rename_i hq
    exact ⟨m, hq ▸ hm⟩
  · exact ⟨n', hn'⟩

theorem grows_addNode {parent : List String} {name : String} (n : FileNode)
    (hfree : fs.node? (parent ++ [name]) = none) : Grows fs (fs.addNode parent name n) := by
  have htouch := made_touch fs parent fun _ => False
  refine htouch.grows.trans (grows_setNode fun m hm => ?_)
  have hmade := htouch.node (parent ++ [name])
  rw [hfree, hm] at hmade
  cases hmade with
  | made h => exact h.elim

theorem IsSound.addNode (h : fs.IsSound) {parent : List String} {name : String} (n : FileNode)
    (hparent : fs.IsDirectoryAt parent) (hname : IsEntryName name)
    (hfree : fs.node? (parent ++ [name]) = none) : (fs.addNode parent name n).IsSound := by
  have htouch := made_touch fs parent fun _ => False
  have hgrows := grows_addNode n hfree
  refine h.of_nodes hgrows.workingDirectory (fun _ => hgrows.isDirectoryAt) fun q last m hm => ?_
  rw [node?_addNode] at hm
  split at hm
  · rename_i hq
    obtain ⟨rfl, hlast⟩ := List.append_inj' hq rfl
    obtain rfl := List.singleton_inj.mp hlast
    exact .inr ⟨hgrows.isDirectoryAt hparent, hname⟩
  · have hmade := htouch.node (q ++ [last])
    rw [hm] at hmade
    generalize fs.node? (q ++ [last]) = m' at hmade
    cases hmade with
    | same => exact .inl ⟨_, rfl⟩
    | touched => exact .inl ⟨_, rfl⟩
    | made h => exact h.elim

/-! Where a free name is found. -/

theorem walkFrom_parent (h : fs.IsSound)
    {follow : List String → List String → Except FileError Found}
    (hfollow : ∀ place parts parent name, fs.IsDirectoryAt place →
      follow place parts = .ok (.missing parent name) →
      fs.IsDirectoryAt parent ∧ IsEntryName name)
    {place parts parent : List String} {name : String} (hplace : fs.IsDirectoryAt place)
    (hwalk : walkFrom fs followLast follow place parts = .ok (.missing parent name)) :
    fs.IsDirectoryAt parent ∧ IsEntryName name := by
  fun_induction walkFrom with
  | case3 place rest ih => exact ih (h.dropLast hplace) hwalk
  | case5 place part rest hdots hname next hnone hrest =>
    cases hwalk
    exact ⟨hplace, hdots, Nat.le_of_not_lt hname⟩
  | case7 place part rest hdots hname next time hnext ih => exact ih ⟨time, hnext⟩ hwalk
  | case11 place part rest hdots hname next target hnext hlast p =>
    refine hfollow _ _ _ _ ?_ hwalk
    split
    · exact isDirectoryAt_root fs
    · exact hplace
  | _ => cases hwalk

theorem walkWithin_parent (h : fs.IsSound) {links : Nat} {place parts parent : List String}
    {name : String} (hplace : fs.IsDirectoryAt place)
    (hwalk : walkWithin fs followLast links place parts = .ok (.missing parent name)) :
    fs.IsDirectoryAt parent ∧ IsEntryName name := by
  induction links generalizing place parts parent name with
  | zero =>
    refine walkFrom_parent h (fun _ _ _ _ _ hfollow => ?_) hplace hwalk
    exact nomatch (hfollow : Except.error FileError.tooManyLinks = .ok _)
  | succ links ih =>
    exact walkFrom_parent h (fun _ _ _ _ hplace hwalk => ih hplace hwalk) hplace hwalk

theorem find_parent (h : fs.IsSound) {p : Path} {parent : List String} {name : String}
    (hfind : fs.find followLast p = .ok (.missing parent name)) :
    fs.IsDirectoryAt parent ∧ IsEntryName name := by
  unfold find at hfind
  split at hfind
  · exact nomatch hfind
  · exact walkWithin_parent h (h.isDirectoryAt_start p) hfind

/-! Making directories. -/

/-- What making a directory comes to: directories are made that the path comes by. -/
structure Makes (fs gs : FileSystem) (p : Path) : Prop where
  adds : AddsDirectories fs gs (fs.ComesBy p)
  links : KeepsLinks fs gs
  sound : fs.IsSound → gs.IsSound

namespace Makes

variable {p q : Path}

theorem refl (fs : FileSystem) (p : Path) : Makes fs fs p := ⟨.refl fs _, .refl fs, id⟩

theorem trans (h : Makes fs gs p) (h' : Makes gs hs p) : Makes fs hs p where
  adds := h.adds.trans (h'.adds.mono fun _ => h.links.comesBy.mp)
  links := h.links.trans h'.links
  sound hfs := h'.sound (h.sound hfs)

theorem mono (h : Makes fs gs q) (hpath : ∀ place, fs.ComesBy q place → fs.ComesBy p place) :
    Makes fs gs p :=
  ⟨h.adds.mono hpath, h.links, h.sound⟩

end Makes

theorem ComesBy.of_parent {p : Path} {q : List String} (h : fs.ComesBy p.parent q) :
    fs.ComesBy p q := by
  have hfront : fs.Visits q (fs.start p) p.parts.dropLast := h
  unfold ComesBy
  by_cases hparts : p.parts = []
  · rwa [hparts] at hfront ⊢
  · rw [← List.dropLast_append_getLast hparts]
    exact hfront.append _

theorem makes_makeDirectory {p : Path} (h : fs.makeDirectory p = .ok gs) : Makes fs gs p := by
  have hlinks := KeepsLinks.makeDirectory h
  unfold makeDirectory at h
  split at h
  case h_1 => exact nomatch h
  case h_2 parent name hfind =>
    obtain rfl := Except.ok.inj h
    have hfree : fs.node? (parent ++ [name]) = none := find_isIn hfind
    refine ⟨addsDirectories_addNode hfree (find_leadsTo hfind (.inr trivial)).comesBy, hlinks,
      fun hsound => ?_⟩
    obtain ⟨hparent, hname⟩ := find_parent hsound hfind
    exact hsound.addNode _ hparent hname hfree
  case h_3 => exact nomatch h

theorem makes_ensureDirectory {p : Path} (h : fs.ensureDirectory p = .ok gs) : Makes fs gs p := by
  rcases eq_or_of_ensureDirectory h with rfl | hmade
  · exact .refl gs p
  · exact makes_makeDirectory hmade

theorem makes_ensureWithin (calls : Nat) (p : Path) (fs : FileSystem) :
    Makes fs (fs.ensureWithin calls p).2 p := by
  fun_induction ensureWithin with
  | case1 calls p made hmade => exact makes_ensureDirectory hmade
  | case2 calls p hmissing hroot => exact .refl fs p
  | case3 p hmissing hparts => exact .refl fs p
  | case4 p hmissing hparts calls e made hmade ih =>
    rw [hmade] at ih
    exact ih.mono fun _ => .of_parent
  | case5 p hmissing hparts calls made hmade made' hmade' ih =>
    rw [hmade] at ih
    exact (ih.mono fun _ => .of_parent).trans (makes_ensureDirectory hmade')
  | case6 p hmissing hparts calls made hmade e he ih =>
    rw [hmade] at ih
    exact ih.mono fun _ => .of_parent
  | case7 calls p e hmissing he => exact .refl fs p

/-! Writing files. -/

/-- What writing a file comes to: it stands at the end of its path, where nothing or a file stood. -/
structure Writes (fs gs : FileSystem) (place : List String) (bytes : List UInt8) : Prop where
  workingDirectory : gs.workingDirectory = fs.workingDirectory
  now : gs.now = fs.now
  links : KeepsLinks fs gs
  sound : fs.IsSound → gs.IsSound
  before : ∀ n, fs.node? place = some n → ∃ bytes time, n = .file bytes time
  written : gs.node? place = some (.file bytes fs.now)
  node : ∀ q, q ≠ place → Made fs.now False (fs.node? q) (gs.node? q)

theorem writes_write {p : Path} {bytes : List UInt8} (h : fs.write p bytes = .ok gs) :
    ∃ place, fs.LeadsTo p place ∧ Writes fs gs place bytes := by
  have hlinks := KeepsLinks.write h
  unfold write at h
  split at h
  case h_1 place old time hfind =>
    obtain rfl := Except.ok.inj h
    have hold : fs.node? place = some (.file old time) := find_isIn hfind
    have hplace : place ≠ [] := by
      rintro rfl
      rw [node?_nil] at hold
      exact nomatch hold
    refine ⟨place, find_leadsTo hfind (.inl rfl), rfl, rfl, hlinks, fun hsound => ?_, ?_, ?_, ?_⟩
    · exact hsound.setNode hold .file
    · exact fun n hn => ⟨old, time, Option.some.inj (hn.symm.trans hold)⟩
    · rw [node?_setNode, if_neg hplace, if_pos rfl]
    · intro q hq
      rw [node?_setNode, if_neg hq]
      split
      · rename_i hnil
        rw [hnil, node?_nil]
        exact .same _
      · exact .same _
  case h_2 => exact nomatch h
  case h_3 parent name hfind =>
    obtain rfl := Except.ok.inj h
    have hfree : fs.node? (parent ++ [name]) = none := find_isIn hfind
    have htouch := made_touch fs parent fun _ => False
    refine ⟨parent ++ [name], find_leadsTo hfind (.inl rfl), htouch.workingDirectory, htouch.now,
      hlinks, fun hsound => ?_, ?_, ?_, ?_⟩
    · obtain ⟨hparent, hname⟩ := find_parent hsound hfind
      exact hsound.addNode _ hparent hname hfree
    · intro n hn
      rw [hfree] at hn
      exact nomatch hn
    · rw [node?_addNode, if_pos rfl]
    · intro q hq
      rw [node?_addNode, if_neg hq]
      exact htouch.node q
  case h_4 => exact nomatch h

/-! Removing files. -/

theorem get?_filter {α β : Type} [DecidableEq α] (keep : α → Bool) (key : α) (es : List (α × β)) :
    Entries.get? key (es.filter fun e => keep e.1) =
      if keep key then Entries.get? key es else none := by
  induction es with
  | nil => simp [Entries.get?]
  | cons e es ih =>
    obtain ⟨k, v⟩ := e
    by_cases hk : k = key
    · subst hk
      cases hkeep : keep k <;> simp [Entries.get?, ih, hkeep]
    · cases hkeep : keep k <;> simp [Entries.get?, ih, hkeep, hk]

theorem node?_removeNode (fs : FileSystem) {place : List String} (hplace : place ≠ [])
    (q : List String) : (fs.removeNode place).node? q =
      if q = place then none else (fs.touch place.dropLast).node? q := by
  have hnow : (fs.touch place.dropLast).now = fs.now := (made_touch fs _ fun _ => False).now
  unfold removeNode node?
  by_cases hq : q = []
  · subst hq
    simp [Ne.symm hplace]
  · rw [if_neg hq, if_neg hq]
    refine (get?_filter (fun k => k ≠ place) q _).trans ?_
    by_cases hqp : q = place <;> simp [hqp]

/-- A change of one file, which is written now or removed. -/
structure Edits (fs gs : FileSystem) (place : List String) : Prop where
  now : gs.now = fs.now
  links : KeepsLinks fs gs
  sound : fs.IsSound → gs.IsSound
  edited : ∀ n, gs.node? place = some n → ∃ bytes, n = .file bytes fs.now
  node : ∀ q, q ≠ place → Made fs.now False (fs.node? q) (gs.node? q)

theorem Writes.edits {place : List String} {bytes : List UInt8} (h : Writes fs gs place bytes) :
    Edits fs gs place where
  now := h.now
  links := h.links
  sound := h.sound
  edited _ hn := ⟨bytes, Option.some.inj (hn.symm.trans h.written)⟩
  node := h.node

theorem edits_removeNode {place : List String} {bytes : List UInt8} {time : Int}
    (h : fs.node? place = some (.file bytes time)) : Edits fs (fs.removeNode place) place := by
  have hplace : place ≠ [] := by
    rintro rfl
    rw [node?_nil] at h
    exact nomatch h
  have htouch := made_touch fs place.dropLast fun _ => False
  have hremoved : (fs.removeNode place).node? place = none := by
    rw [node?_removeNode fs hplace, if_pos rfl]
  have hnode (q : List String) (hq : q ≠ place) :
      Made fs.now False (fs.node? q) ((fs.removeNode place).node? q) := by
    rw [node?_removeNode fs hplace, if_neg hq]
    exact htouch.node q
  have hkind (q : List String) (hq : q ≠ place) :
      (∃ time, fs.node? q = some (.directory time)) ∧
        (∃ time, (fs.removeNode place).node? q = some (.directory time)) ∨
      (fs.removeNode place).node? q = fs.node? q := by
    have hmade := hnode q hq
    generalize fs.node? q = n, (fs.removeNode place).node? q = n' at hmade
    cases hmade with
    | same => exact .inr rfl
    | touched => exact .inl ⟨⟨_, rfl⟩, _, rfl⟩
    | made h => exact h.elim
  refine ⟨htouch.now, ⟨htouch.workingDirectory, fun q target => ?_⟩, fun hsound => ?_,
    fun _ hn => ?_, hnode⟩
  · by_cases hq : q = place
    · subst hq
      simp [hremoved, h]
    · rcases hkind q hq with ⟨⟨t, ht⟩, t', ht'⟩ | heq
      · simp [ht, ht']
      · rw [heq]
  · refine hsound.of_nodes htouch.workingDirectory (fun q hq => ?_) fun q name n hn => .inl ?_
    · have hne : q ≠ place := by
        rintro rfl
        obtain ⟨t, ht⟩ := hq
        exact nomatch h.symm.trans ht
      rcases hkind q hne with ⟨-, ht'⟩ | heq
      · exact ht'
      · unfold IsDirectoryAt
        rwa [heq]
    · have hne : q ++ [name] ≠ place := by
        intro heq
        rw [heq, hremoved] at hn
        exact nomatch hn
      rcases hkind _ hne with ⟨⟨t, ht⟩, -⟩ | heq
      · exact ⟨_, ht⟩
      · exact ⟨n, heq ▸ hn⟩
  · rw [hremoved] at hn
    exact nomatch hn

end GraphQLDoc.FileSystem
