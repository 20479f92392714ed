import GraphQLDoc.Proofs.Yaml.Nodes
import GraphQLDoc.Workspace.Config

/-!
Loading the configuration of a workspace: whatever the file says, there is a configuration or a problem
that is told, unless the file is no UTF-8, a scalar in it is no value of its kind, or collections in it
are nested too deeply.
-/
namespace GraphQLDoc

namespace FileSystem

variable {fs : FileSystem} {followLast : Bool}

theorem walkFrom_ne_nullCharacter
    {follow : List String → List String → Except FileError Found}
    (hfollow : ∀ place parts, follow place parts ≠ .error .nullCharacter) (place parts : List String) :
    walkFrom fs followLast follow place parts ≠ .error .nullCharacter := by
  fun_induction walkFrom with
  | case3 place rest ih => exact ih
  | case7 place part rest hdots hname next time hnext ih => exact ih
  | case11 place part rest hdots hname next target hnext hlast p => exact hfollow _ _
  | _ => nofun

theorem walkWithin_ne_nullCharacter (links : Nat) (place parts : List String) :
    walkWithin fs followLast links place parts ≠ .error .nullCharacter := by
  induction links generalizing place parts with
  | zero =>
    refine walkFrom_ne_nullCharacter (fun place parts h => ?_) place parts
    cases Except.error.inj h
  | succ links ih => exact walkFrom_ne_nullCharacter ih place parts

/-- Only a null character in a path keeps the system from being asked. -/
theorem read_ne_nullCharacter {p : Path} (h : p.hasNull = false) :
    fs.read p ≠ .error .nullCharacter := by
  intro hread
  have hfind : fs.find true p ≠ .error .nullCharacter := by
    unfold find
    split
    · rename_i e hrefusal
      rw [refusal?, h, if_neg Bool.false_ne_true] at hrefusal
      split at hrefusal <;> cases hrefusal
      simp
    · exact walkWithin_ne_nullCharacter _ _ _
  unfold read stat at hread
  split at hread
  · cases hread
  · cases hread
  · rename_i e hstat
    obtain rfl := Except.error.inj hread
    split at hstat
    · cases hstat
    · cases hstat
    · rename_i hwalk
      exact hfind (hwalk.trans (congrArg _ (Except.error.inj hstat)))

end FileSystem

namespace Config

variable {fs : FileSystem} {p : Path}

theorem sources_of_sourcesOf {d : Yaml.Document} {value : Option Yaml.Content}
    {sources : List JsonString} (h : sourcesOf d value = .ok sources) : sources ≠ [] := by
  unfold sourcesOf at h
  split at h
  · cases h
    exact List.cons_ne_nil _ _
  · cases h
  · cases h
  · rename_i items hitems
    split at h
    · rename_i texts htexts
      cases h
      rintro rfl
      cases items with
      | nil => exact hitems rfl
      | cons item rest =>
        rw [List.mapM_cons] at htexts
        obtain ⟨text, -, htexts⟩ := Option.bind_eq_some_iff.mp htexts
        obtain ⟨more, -, htexts⟩ := Option.bind_eq_some_iff.mp htexts
        cases htexts
    · cases h
  · cases h

theorem sources_of_ofDocument {d : Yaml.Document} {c : Config} (h : ofDocument d = .ok c) :
    c.sources ≠ [] := by
  unfold ofDocument at h
  split at h
  · rename_i entries hentries
    cases hdirectory : buildDirectoryOf (d.get? "build-directory" entries) with
    | error e =>
      rw [hdirectory] at h
      cases h
    | ok directory =>
      cases hsources : sourcesOf d (d.get? "sources" entries) with
      | error e =>
        rw [hdirectory, hsources] at h
        cases h
      | ok sources =>
        rw [hdirectory, hsources] at h
        cases h
        exact sources_of_sourcesOf hsources
  · cases h

variable [Machine]

/-- What loading may come to, by what there is to read. -/
inductive IsOutcome (contents : Except FileError (List UInt8)) : Except ConfigError Config → Prop where
  | config {c : Config} (h : c.sources ≠ []) : IsOutcome contents (.ok c)
  | problem (p : ConfigProblem) : IsOutcome contents (.error (.problem p))
  /-- The file is no UTF-8. -/
  | encoding {bytes : List UInt8} {f : Utf8.Fault} (hcontents : contents = .ok bytes)
      (h : Utf8.decode bytes = .error f) : IsOutcome contents (.error (.fault (.encoding f)))
  /-- A scalar is no value of its kind. -/
  | scalar {bytes : List UInt8} {text : List Char} {f : Yaml.ScalarFault}
      (hcontents : contents = .ok bytes) (htext : textOfFile bytes = .ok text)
      (h : Yaml.HasFault text f) : IsOutcome contents (.error (.fault (.scalar f)))
  /-- Collections are nested in each other too deeply. -/
  | deep {bytes : List UInt8} {text : List Char} (hcontents : contents = .ok bytes)
      (htext : textOfFile bytes = .ok text) (h : Yaml.IsTooDeep text) :
      IsOutcome contents (.error (.fault .configuration))

theorem ofText_isOutcome {bytes : List UInt8} {text : List Char}
    (htext : textOfFile bytes = .ok text) : IsOutcome (.ok bytes) (ofText text) := by
  unfold ofText
  split
  · exact .problem _
  · rename_i hread
    exact .deep rfl htext (Yaml.Document.isOf_of_read hread)
  · rename_i f hread
    exact .scalar rfl htext (Yaml.Document.isOf_of_read hread)
  · exact .problem _
  · rename_i d hread
    cases hd : ofDocument d with
    | ok c => exact .config (sources_of_ofDocument hd)
    | error problem => exact .problem problem

/-- A workspace that has only its configuration. -/
def fileWith (bytes : List UInt8) : FileSystem where
  nodes := [([fileName], .file bytes 0)]
  workingDirectory := []
  now := 1

/-- The scalar that stops loading. -/
def scalarFault? : Except ConfigError Config → Option Yaml.ScalarFault
  | .error (.fault (.scalar f)) => some f
  | _ => none

omit [Machine] in
theorem eq_of_scalarFault {r : Except ConfigError Config} {f : Yaml.ScalarFault}
    (h : scalarFault? r = some f) : r = .error (.fault (.scalar f)) := by
  unfold scalarFault? at h
  split at h
  · rw [Option.some.inj h]
  · cases h

/-- The fault of an encoding that stops loading. -/
def encodingFault? : Except ConfigError Config → Option Utf8.Fault
  | .error (.fault (.encoding f)) => some f
  | _ => none

omit [Machine] in
theorem eq_of_encodingFault {r : Except ConfigError Config} {f : Utf8.Fault}
    (h : encodingFault? r = some f) : r = .error (.fault (.encoding f)) := by
  unfold encodingFault? at h
  split at h
  · rw [Option.some.inj h]
  · cases h

end Config

end GraphQLDoc
