import GraphQLDoc.Proofs.FileSystem.Changes

/-!
What is found again. A path that leads to a node still does when the file system grows, and what is
made at the end of a path is found there. Below a directory that a path leads to, names are gone over
one by one; directories can be made there as long as no file is in the way.
-/
namespace GraphQLDoc.FileSystem

variable {fs gs : FileSystem} {followLast : Bool}
  {follow follow' : List String → List String → Except FileError Found}

/-! Growth. -/

theorem walkFrom_grows (h : Grows fs gs)
    (hfollow : ∀ place parts q n, follow place parts = .ok (.node q n) →
      ∃ n', follow' place parts = .ok (.node q n'))
    {place parts q : List String} {n : FileNode}
    (hwalk : walkFrom fs true follow place parts = .ok (.node q n)) :
    ∃ n', walkFrom gs true follow' place parts = .ok (.node q n') := by
  induction parts generalizing place with
  | nil =>
    rw [walkFrom] at hwalk ⊢
    split at hwalk
    · rename_i m hm
      have hkind := h.node place m hm
      generalize gs.node? place = m' at hkind
      cases hwalk
      cases hkind <;> exact ⟨_, rfl⟩
    · cases hwalk
  | cons part rest ih =>
    by_cases hdots : part = ".."
    · rw [walkFrom, if_pos hdots] at hwalk ⊢
      exact ih hwalk
    by_cases hname : maxNameBytes < part.utf8ByteSize
    · rw [walkFrom, if_neg hdots, if_pos hname] at hwalk
      cases hwalk
    rw [walkFrom, if_neg hdots, if_neg hname] at hwalk ⊢
    dsimp only at hwalk ⊢
    cases hm : fs.node? (place ++ [part]) with
    | none =>
      rw [hm] at hwalk
      dsimp only at hwalk
      split at hwalk <;> cases hwalk
    | some m =>
      have hkind := h.node _ m hm
      rw [hm] at hwalk
      generalize gs.node? (place ++ [part]) = m' at hkind
      cases hkind with
      | directory => exact ih hwalk
      | file =>
        dsimp only at hwalk ⊢
        split at hwalk
        · cases hwalk
          exact ⟨_, if_pos ‹_›⟩
        · cases hwalk
      | link =>
        simp only [Bool.not_true, Bool.and_false, Bool.false_eq_true, if_false] at hwalk ⊢
        exact hfollow _ _ _ _ hwalk

theorem walkWithin_grows (h : Grows fs gs) {links : Nat} {place parts q : List String}
    {n : FileNode} (hwalk : walkWithin fs true links place parts = .ok (.node q n)) :
    ∃ n', walkWithin gs true links place parts = .ok (.node q n') := by
  induction links generalizing place parts q n with
  | zero =>
    refine walkFrom_grows h (fun _ _ _ _ hfollow => ?_) hwalk
    exact nomatch (hfollow : Except.error FileError.tooManyLinks = .ok _)
  | succ links ih => exact walkFrom_grows h (fun _ _ _ _ hwalk => ih hwalk) hwalk

theorem find_grows (h : Grows fs gs) {p : Path} {q : List String} {n : FileNode}
    (hfind : fs.find true p = .ok (.node q n)) :
    ∃ n', gs.find true p = .ok (.node q n') ∧ gs.node? q = some n' := by
  have hgs := @find_isIn gs true p
  unfold find at hfind hgs ⊢
  rw [h.workingDirectory] at hgs ⊢
  split at hfind
  · exact nomatch hfind
  · rename_i hnone
    obtain ⟨n', hn'⟩ := walkWithin_grows h hfind
    rw [hnone] at hgs
    exact ⟨n', hn', hgs hn'⟩

/-- A walk that gets lost among links still does. -/
theorem walkFrom_grows_loop (h : Grows fs gs)
    (hfollow : ∀ place parts, follow place parts = .error .tooManyLinks →
      follow' place parts = .error .tooManyLinks)
    {place parts : List String}
    (hwalk : walkFrom fs followLast follow place parts = .error .tooManyLinks) :
    walkFrom gs followLast follow' place parts = .error .tooManyLinks := by
  fun_induction walkFrom fs followLast follow place parts with
  | case3 place rest ih =>
    rw [walkFrom, if_pos rfl]
    exact ih hwalk
  | case7 place part rest hdots hname next time hnext ih =>
    have hkind := h.node next _ hnext
    rw [walkFrom, if_neg hdots, if_neg hname]
    dsimp only
    generalize gs.node? next = m at hkind
    cases hkind
    exact ih hwalk
  | case11 place part rest hdots hname next target hnext hlast p =>
    have hkind := h.node next _ hnext
    rw [walkFrom, if_neg hdots, if_neg hname]
    dsimp only
    generalize gs.node? next = m at hkind
    cases hkind
    dsimp only
    rw [if_neg hlast]
    exact hfollow _ _ hwalk
  | _ => cases hwalk

theorem walkWithin_grows_loop (h : Grows fs gs) {links : Nat} {place parts : List String}
    (hwalk : walkWithin fs followLast links place parts = .error .tooManyLinks) :
    walkWithin gs followLast links place parts = .error .tooManyLinks := by
  induction links generalizing place parts with
  | zero => exact walkFrom_grows_loop h (fun _ _ _ => rfl) hwalk
  | succ links ih => exact walkFrom_grows_loop h (fun _ _ hwalk => ih hwalk) hwalk

theorem stat_grows_loop (h : Grows fs gs) {p : Path} (hstat : fs.stat p = .error .tooManyLinks) :
    gs.stat p = .error .tooManyLinks := by
  have hfind : fs.find true p = .error .tooManyLinks := by
    unfold stat at hstat
    split at hstat
    · cases hstat
    · cases hstat
    · rename_i e he
      cases hstat
      exact he
  have hloop : gs.find true p = .error .tooManyLinks := by
    unfold find at hfind ⊢
    rw [h.workingDirectory]
    split at hfind
    · exact hfind
    · exact walkWithin_grows_loop h hfind
  rw [stat, hloop]

/-- What is the real path of a path now was it before. -/
theorem Grows.resolve_of (h : Grows fs gs) (hlinks : KeepsLinks fs gs) {p a : Path}
    (ha : gs.resolve p = .ok a) : fs.resolve p = .ok a := by
  obtain ⟨hnull, hreal, hstat⟩ := resolve_eq_ok_iff.mp ha
  exact resolve_eq_ok_iff.mpr
    ⟨hnull, (hlinks.realPath_eq p).symm.trans hreal, fun hloop => hstat (stat_grows_loop h hloop)⟩

/-! Everything on the way is there. -/

/-- Something stands at a place, and no file does unless the place is the end. -/
def IsOnTheWay (fs : FileSystem) (q r : List String) : Prop :=
  ∃ n, fs.node? r = some n ∧ ∀ bytes time, n = .file bytes time → r = q

theorem IsDirectoryAt.isOnTheWay {q r : List String} (h : fs.IsDirectoryAt r) :
    fs.IsOnTheWay q r :=
  h.elim fun _ htime => ⟨_, htime, nofun⟩

theorem walkFrom_visits (h : fs.IsSound)
    (hfollow : ∀ place parts q n, fs.IsDirectoryAt place → follow place parts = .ok (.node q n) →
      ∀ r, fs.Visits r place parts → fs.IsOnTheWay q r)
    {place parts q : List String} {n : FileNode} (hplace : fs.IsDirectoryAt place)
    (hwalk : walkFrom fs true follow place parts = .ok (.node q n)) {r : List String}
    (hr : fs.Visits r place parts) : fs.IsOnTheWay q r := by
  induction parts generalizing place with
  | nil =>
    cases hr
    exact hplace.isOnTheWay
  | cons part rest ih =>
    by_cases hdots : part = ".."
    · subst hdots
      rw [walkFrom, if_pos rfl] at hwalk
      cases hr with
      | here => exact hplace.isOnTheWay
      | up hr => exact ih (h.dropLast hplace) hwalk hr
      | next hpart => exact absurd rfl hpart
      | on hpart => exact absurd rfl hpart
      | link hpart => exact absurd rfl hpart
    by_cases hname : maxNameBytes < part.utf8ByteSize
    · rw [walkFrom, if_neg hdots, if_pos hname] at hwalk
      cases hwalk
    rw [walkFrom, if_neg hdots, if_neg hname] at hwalk
    dsimp only at hwalk
    cases hn : fs.node? (place ++ [part]) with
    | none =>
      rw [hn] at hwalk
      dsimp only at hwalk
      split at hwalk <;> cases hwalk
    | some m =>
      rw [hn] at hwalk
      cases hr with
      | here => exact hplace.isOnTheWay
      | up => exact absurd rfl hdots
      | next _ hnext =>
        obtain rfl := hnext
        refine ⟨m, hn, fun bytes time hm => ?_⟩
        subst hm
        dsimp only at hwalk
        split at hwalk
        · cases hwalk
          rfl
        · cases hwalk
      | on _ hlink hr =>
        cases m with
        | directory time => exact ih ⟨time, hn⟩ hwalk hr
        | file bytes time =>
          dsimp only at hwalk
          split at hwalk
          · rename_i hrest
            obtain rfl := List.isEmpty_iff.mp hrest
            cases hr
            cases hwalk
            exact ⟨_, hn, fun _ _ _ => rfl⟩
          · cases hwalk
        | link target => exact absurd ⟨target, hn⟩ hlink
      | link _ hlink hr =>
        obtain rfl := Option.some.inj (hn.symm.trans hlink)
        simp only [Bool.not_true, Bool.and_false, Bool.false_eq_true, if_false] at hwalk
        refine hfollow _ _ _ _ ?_ hwalk _ hr
        split
        · exact isDirectoryAt_root fs
        · exact hplace

theorem walkWithin_visits (h : fs.IsSound) {links : Nat} {place parts q : List String}
    {n : FileNode} (hplace : fs.IsDirectoryAt place)
    (hwalk : walkWithin fs true links place parts = .ok (.node q n)) {r : List String}
    (hr : fs.Visits r place parts) : fs.IsOnTheWay q r := by
  induction links generalizing place parts q n r with
  | zero =>
    refine walkFrom_visits h (fun _ _ _ _ _ hfollow => ?_) hplace hwalk hr
    exact nomatch (hfollow : Except.error FileError.tooManyLinks = .ok _)
  | succ links ih =>
    exact walkFrom_visits h (fun _ _ _ _ hplace hwalk _ hr => ih hplace hwalk hr) hplace hwalk hr

theorem find_comesBy (h : fs.IsSound) {p : Path} {q : List String} {n : FileNode}
    (hfind : fs.find true p = .ok (.node q n)) {r : List String} (hr : fs.ComesBy p r) :
    fs.IsOnTheWay q r := by
  unfold find at hfind
  split at hfind
  · exact nomatch hfind
  · exact walkWithin_visits h (h.isDirectoryAt_start p) hfind hr

/-! Names that are not too long. -/

theorem walkFrom_ne_nameTooLong
    (hfollow : ∀ place parts, (∀ q name, fs.Visits (q ++ [name]) place parts →
      name.utf8ByteSize ≤ maxNameBytes) → follow place parts ≠ .error .nameTooLong)
    {place parts : List String} (h : ∀ q name, fs.Visits (q ++ [name]) place parts →
      name.utf8ByteSize ≤ maxNameBytes) :
    walkFrom fs followLast follow place parts ≠ .error .nameTooLong := by
  intro hlong
  fun_induction walkFrom fs followLast follow place parts with
  | case3 place rest ih => exact ih (fun q name hq => h q name (.up hq)) hlong
  | case4 place part rest hdots hname => exact absurd (h place part (.next hdots rfl)) (by omega)
  | case7 place part rest hdots hname next time hnext ih =>
    have hlink : ¬ fs.IsLink next := not_isLink fun _ => by simp [hnext]
    exact ih (fun q name hq => h q name (.on hdots hlink hq)) hlong
  | case11 place part rest hdots hname next target hnext hlast p =>
    exact hfollow _ _ (fun q name hq => h q name (.link hdots hnext hq)) hlong
  | _ => cases hlong

theorem HasShortNames.stat_ne {p : Path} (h : fs.HasShortNames p) :
    fs.stat p ≠ .error .nameTooLong := by
  have hwalk (links : Nat) (place parts : List String) (h : ∀ q name,
      fs.Visits (q ++ [name]) place parts → name.utf8ByteSize ≤ maxNameBytes) :
      walkWithin fs true links place parts ≠ .error .nameTooLong := by
    induction links generalizing place parts with
    | zero =>
      refine walkFrom_ne_nameTooLong (fun _ _ _ hfollow => ?_) h
      exact nomatch (hfollow : Except.error FileError.tooManyLinks = .error _)
    | succ links ih => exact walkFrom_ne_nameTooLong ih h
  intro hstat
  unfold stat find at hstat
  split at hstat
  · exact nomatch hstat
  · exact nomatch hstat
  · rename_i e he
    obtain rfl := Except.error.inj hstat
    by_cases hnull : p.hasNull = true
    · rw [refusal?, if_pos hnull] at he
      exact nomatch he
    rw [refusal?_eq_none.mpr ⟨by simpa using hnull, h.path⟩] at he
    exact hwalk _ _ _ h.name he

/-- Where something is found, the names on the way are not too long. -/
theorem IsSound.hasShortNames (h : fs.IsSound) {p : Path} {q : List String} {n : FileNode}
    (hfind : fs.find true p = .ok (.node q n)) : fs.HasShortNames p := by
  refine ⟨(refusal?_eq_none.mp (refusal?_of_find hfind)).2, fun place name hcomes => ?_⟩
  obtain ⟨m, hm, -⟩ := find_comesBy h hfind hcomes
  exact (h.name place name m hm).size

/-! What is new. -/

/-- A name that was free is found when something stands there. -/
theorem walkFrom_added {parent : List String} {name : String} {n : FileNode}
    (hfree : fs.node? (parent ++ [name]) = none) (hadded : gs.node? (parent ++ [name]) = some n)
    (hlink : ∀ target, n ≠ .link target)
    (hkind : ∀ q, q ≠ parent ++ [name] → SameKind (fs.node? q) (gs.node? q))
    (hfollow : ∀ place parts, follow place parts = .ok (.missing parent name) →
      follow' place parts = .ok (.node (parent ++ [name]) n))
    {place parts : List String}
    (hwalk : walkFrom fs followLast follow place parts = .ok (.missing parent name)) :
    walkFrom gs true follow' place parts = .ok (.node (parent ++ [name]) n) := by
  induction parts generalizing place with
  | nil =>
    rw [walkFrom] at hwalk
    split at hwalk <;> cases hwalk
  | cons part rest ih =>
    by_cases hdots : part = ".."
    · rw [walkFrom, if_pos hdots] at hwalk ⊢
      exact ih hwalk
    by_cases hname : maxNameBytes < part.utf8ByteSize
    · rw [walkFrom, if_neg hdots, if_pos hname] at hwalk
      cases hwalk
    rw [walkFrom, if_neg hdots, if_neg hname] at hwalk ⊢
    dsimp only at hwalk ⊢
    by_cases hend : place ++ [part] = parent ++ [name]
    · rw [hend, hfree] at hwalk
      rw [hend, hadded]
      dsimp only at hwalk
      split at hwalk
      · rename_i hrest
        obtain rfl := List.isEmpty_iff.mp hrest
        cases n with
        | file bytes time => rfl
        | directory time =>
          show walkFrom gs true follow' (parent ++ [name]) [] = _
          rw [walkFrom, hadded]
        | link target => exact absurd rfl (hlink target)
      · cases hwalk
    · have hsame := hkind _ hend
      generalize fs.node? (place ++ [part]) = m, gs.node? (place ++ [part]) = m' at hsame hwalk
      cases hsame with
      | none =>
        dsimp only at hwalk
        split at hwalk
        · cases hwalk
          exact absurd rfl hend
        · cases hwalk
      | directory => exact ih hwalk
      | file =>
        dsimp only at hwalk
        split at hwalk <;> cases hwalk
      | link =>
        dsimp only at hwalk
        split at hwalk
        · cases hwalk
        · simp only [Bool.not_true, Bool.and_false, Bool.false_eq_true, if_false]
          exact hfollow _ _ hwalk

theorem walkWithin_added {parent : List String} {name : String} {n : FileNode}
    (hfree : fs.node? (parent ++ [name]) = none) (hadded : gs.node? (parent ++ [name]) = some n)
    (hlink : ∀ target, n ≠ .link target)
    (hkind : ∀ q, q ≠ parent ++ [name] → SameKind (fs.node? q) (gs.node? q))
    {links : Nat} {place parts : List String}
    (hwalk : walkWithin fs followLast links place parts = .ok (.missing parent name)) :
    walkWithin gs true links place parts = .ok (.node (parent ++ [name]) n) := by
  induction links generalizing place parts with
  | zero =>
    refine walkFrom_added hfree hadded hlink hkind (fun _ _ hfollow => ?_) hwalk
    exact nomatch (hfollow : Except.error FileError.tooManyLinks = .ok _)
  | succ links ih =>
    exact walkFrom_added hfree hadded hlink hkind (fun _ _ hwalk => ih hwalk) hwalk

theorem sameKind_of_made {now : Int} {n n' : Option FileNode} (h : Made now False n n') :
    SameKind n n' := by
  cases h with
  | same => exact .rfl _
  | touched => exact .directory
  | made h => exact h.elim

/-- What is added at the end of a path is found there. -/
theorem find_addNode {p : Path} {parent : List String} {name : String} {n : FileNode}
    (hlink : ∀ target, n ≠ .link target)
    (hfind : fs.find followLast p = .ok (.missing parent name)) :
    (fs.addNode parent name n).find true p = .ok (.node (parent ++ [name]) n) := by
  have hfree : fs.node? (parent ++ [name]) = none := find_isIn hfind
  have htouch := made_touch fs parent fun _ => False
  have hadded : (fs.addNode parent name n).node? (parent ++ [name]) = some n := by
    rw [node?_addNode, if_pos rfl]
  have hkind (q : List String) (hq : q ≠ parent ++ [name]) :
      SameKind (fs.node? q) ((fs.addNode parent name n).node? q) := by
    rw [node?_addNode, if_neg hq]
    exact sameKind_of_made (htouch.node q)
  have hworking : (fs.addNode parent name n).workingDirectory = fs.workingDirectory :=
    htouch.workingDirectory
  unfold find at hfind ⊢
  rw [hworking]
  split at hfind
  · exact nomatch hfind
  · exact walkWithin_added hfree hadded hlink hkind hfind

/-- What is written is found. -/
theorem find_write {p : Path} {bytes : List UInt8} (h : fs.write p bytes = .ok gs) :
    ∃ place, gs.find true p = .ok (.node place (.file bytes fs.now)) ∧ Writes fs gs place bytes := by
  obtain ⟨place, hleads, hwrites⟩ := writes_write h
  refine ⟨place, ?_, hwrites⟩
  unfold write at h
  split at h
  case h_1 place' old time hfind =>
    obtain rfl := (find_leadsTo hfind (.inl rfl)).unique hleads
    have hgrows : Grows fs gs := Except.ok.inj h ▸ grows_setNode fun m hm =>
      Option.some.inj ((find_isIn hfind).symm.trans hm) ▸ .file
    obtain ⟨n', hn', hnode⟩ := find_grows hgrows hfind
    obtain rfl := Option.some.inj (hwrites.written.symm.trans hnode)
    exact hn'
  case h_2 => exact nomatch h
  case h_3 parent name hfind =>
    obtain rfl := (find_leadsTo hfind (.inl rfl)).unique hleads
    exact Except.ok.inj h ▸ find_addNode nofun hfind
  case h_4 => exact nomatch h

/-! Directories that are there. -/

theorem walkFrom_unfollowed
    (hfollow : ∀ place parts q n, follow place parts = .ok (.node q n) →
      ∃ q' n', follow' place parts = .ok (.node q' n'))
    {place parts q : List String} {n : FileNode}
    (hwalk : walkFrom fs true follow place parts = .ok (.node q n)) :
    ∃ q' n', walkFrom fs false follow' place parts = .ok (.node q' n') := by
  fun_induction walkFrom fs true follow place parts with
  | case1 place n hn => exact ⟨place, n, by rw [walkFrom, hn]⟩
  | case3 place rest ih =>
    rw [walkFrom, if_pos rfl]
    exact ih hwalk
  | case7 place part rest hdots hname next time hnext ih =>
    obtain ⟨q', n', h⟩ := ih hwalk
    refine ⟨q', n', ?_⟩
    rw [walkFrom, if_neg hdots, if_neg hname]
    simpa only [next, hnext] using h
  | case8 place part rest hdots hname next bytes time hnext hrest =>
    refine ⟨next, .file bytes time, ?_⟩
    rw [walkFrom, if_neg hdots, if_neg hname]
    simp only [next] at hnext
    simp only [hnext, hrest, if_true, next]
  | case10 place part rest hdots hname next target hnext hlast => simp at hlast
  | case11 place part rest hdots hname next target hnext hlast p =>
    rw [walkFrom, if_neg hdots, if_neg hname]
    simp only [next] at hnext
    simp only [hnext]
    split
    · exact ⟨_, _, rfl⟩
    · exact hfollow _ _ _ _ hwalk
  | _ => cases hwalk

theorem walkWithin_unfollowed {links : Nat} {place parts q : List String} {n : FileNode}
    (hwalk : walkWithin fs true links place parts = .ok (.node q n)) :
    ∃ q' n', walkWithin fs false links place parts = .ok (.node q' n') := by
  induction links generalizing place parts q n with
  | zero =>
    refine walkFrom_unfollowed (fun _ _ _ _ hfollow => ?_) hwalk
    exact nomatch (hfollow : Except.error FileError.tooManyLinks = .ok _)
  | succ links ih => exact walkFrom_unfollowed (fun _ _ _ _ hwalk => ih hwalk) hwalk

theorem isDirectory_iff {p : Path} : fs.isDirectory p = true ↔
    ∃ q time, fs.find true p = .ok (.node q (.directory time)) := by
  unfold isDirectory stat
  constructor
  · intro h
    split at h
    · rename_i time hstat
      split at hstat
      · rename_i q n hfind
        cases hstat
        exact ⟨q, time, hfind⟩
      · exact nomatch hstat
      · exact nomatch hstat
    · exact nomatch h
  · rintro ⟨q, time, hfind⟩
    rw [hfind]

/-! Questions. -/

variable {α : Type} {answer a : α}

theorem ask_eq {p : Path} (h : fs.stat p ≠ .error .nameTooLong) (answer : α) :
    fs.ask p answer = .ok answer := by
  unfold ask
  split
  · exact absurd ‹_› h
  · rfl

theorem ask_eq_ok {p : Path} :
    fs.ask p answer = .ok a ↔ fs.stat p ≠ .error .nameTooLong ∧ a = answer := by
  by_cases h : fs.stat p = .error .nameTooLong
  · simp [ask, h]
  · simp [ask_eq h, h, eq_comm]

theorem ask_eq_error {p : Path} {e : FileError} :
    fs.ask p answer = .error e ↔ fs.stat p = .error .nameTooLong ∧ e = .nameTooLong := by
  by_cases h : fs.stat p = .error .nameTooLong
  · simp [ask, h, eq_comm]
  · simp [ask_eq h, h]

theorem stat_ne_of_find {p : Path} {found : Found} (h : fs.find true p = .ok found) :
    fs.stat p ≠ .error .nameTooLong := by
  rw [stat, h]
  cases found <;> simp

/-- There is an answer about what is found. -/
theorem ask_of_find {p : Path} {found : Found} (h : fs.find true p = .ok found) (answer : α) :
    fs.ask p answer = .ok answer :=
  ask_eq (stat_ne_of_find h) answer

theorem ask_isDirectory {p : Path} (h : fs.isDirectory p = true) (answer : α) :
    fs.ask p answer = .ok answer := by
  obtain ⟨q, time, hfind⟩ := isDirectory_iff.mp h
  exact ask_of_find hfind answer

theorem ensureDirectory_of_isDirectory {p : Path} (h : fs.isDirectory p = true) :
    fs.ensureDirectory p = .ok fs := by
  obtain ⟨q, time, hfind⟩ := isDirectory_iff.mp h
  have hfound : ∃ q' n', fs.find false p = .ok (.node q' n') := by
    unfold find at hfind ⊢
    split at hfind
    · exact nomatch hfind
    · exact walkWithin_unfollowed hfind
  obtain ⟨q', n', hfound⟩ := hfound
  unfold ensureDirectory makeDirectory
  simp only [hfound, ask_isDirectory h, h]

/-- Directories that are there are not made again. -/
theorem ensureWithin_of_isDirectory {p : Path} (h : fs.isDirectory p = true) (calls : Nat) :
    fs.ensureWithin calls p = (.ok (), fs) := by
  unfold ensureWithin
  rw [ensureDirectory_of_isDirectory h]

theorem ensureDirectories_of_refusal [Machine] {p : Path} {e : FileError} (h : refusal? p = some e) :
    fs.ensureDirectories p = (.error e, fs) := by
  have he : e = .nullCharacter ∨ e = .nameTooLong := by
    unfold refusal? at h
    split_ifs at h <;> cases h
    · exact .inl rfl
    · exact .inr rfl
  have hensure : fs.ensureDirectory p = .error e := by
    rcases he with rfl | rfl <;>
      simp only [ensureDirectory, makeDirectory, ask, isDirectory, stat, find, h]
  unfold ensureDirectories ensureWithin
  rw [hensure]
  rcases he with rfl | rfl <;> rfl

end GraphQLDoc.FileSystem
