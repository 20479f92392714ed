import GraphQLDoc.Json.Reader
import GraphQLDoc.Number.Numeral
import GraphQLDoc.Proofs.Number.Rounding

/-!
The numbers of data. Reading rounds, so each float in what is read from a text has the one form that
its number has; a float that a text in data stands for has it too.
-/
namespace GraphQLDoc

theorem Entries.mem_put {α β : Type} [DecidableEq α] {key : α} {value : β} {es : List (α × β)}
    {e : α × β} (h : e ∈ put key value es) : e = (key, value) ∨ e ∈ es := by
  induction es with
  | nil => exact .inl (List.mem_singleton.mp h)
  | cons e' rest ih =>
    obtain ⟨k, v⟩ := e'
    rw [put] at h
    split at h
    · rename_i hk
      exact (List.mem_cons.mp h).imp (hk ▸ ·) (List.mem_cons_of_mem _)
    · rcases List.mem_cons.mp h with rfl | h
      · exact .inr List.mem_cons_self
      · exact (ih h).imp_right (List.mem_cons_of_mem _)

namespace Json

/-- Each float, however deep inside, has the form that its number has once. -/
inductive HasCanonicalFloats : Json → Prop where
  | null : HasCanonicalFloats .null
  | bool (b : Bool) : HasCanonicalFloats (.bool b)
  | int (n : Int) : HasCanonicalFloats (.int n)
  | float {x : Binary64} (h : x.IsCanonical) : HasCanonicalFloats (.float x)
  | string (s : JsonString) : HasCanonicalFloats (.string s)
  | array {items : List Json} (h : ∀ v ∈ items, HasCanonicalFloats v) : HasCanonicalFloats (.array items)
  | object {entries : List (JsonString × Json)} (h : ∀ e ∈ entries, HasCanonicalFloats e.2) :
      HasCanonicalFloats (.object entries)

/-- What is read has a property. -/
def Reads {α : Type} (P : α → Prop) : Except ReadError (α × Input) → Prop
  | .ok (a, _) => P a
  | .error _ => True

theorem Reads.bind {α β : Type} {P : α → Prop} {Q : β → Prop} {r : Except ReadError (α × Input)}
    {k : α × Input → Except ReadError (β × Input)} (h : Reads P r)
    (hk : ∀ a rest, P a → Reads Q (k (a, rest))) : Reads Q (r >>= k) := by
  cases r with
  | ok x => exact hk x.1 x.2 h
  | error e => trivial

theorem reads_readNumber (i : Input) : Reads HasCanonicalFloats (readNumber i) := by
  unfold readNumber
  split
  · trivial
  · dsimp only
    split
    · split
      · trivial
      · exact .int _
    · exact .float (Binary64.ofDecimal_isCanonical _ _ _)

theorem words_canonical : ∀ w ∈ words, w.2.HasCanonicalFloats := by
  simp only [words, List.forall_mem_cons, List.not_mem_nil, false_imp_iff, implies_true, and_true]
  exact ⟨.null, .bool _, .bool _, .float trivial, .float trivial, .float trivial⟩

theorem reads_readScalar (i : Input) : Reads HasCanonicalFloats (readScalar i) := by
  unfold readScalar
  split
  · rename_i w v hfind
    exact words_canonical _ (List.mem_of_find?_eq_some hfind)
  · exact reads_readNumber i

mutual

theorem reads_readValue (strict : Bool) : (levels fuel : Nat) → (i : Input) →
    Reads HasCanonicalFloats (readValue strict levels fuel i)
  | _, 0, _ => trivial
  | levels, fuel + 1, i => by
    simp only [readValue]
    split
    · exact Reads.bind (P := fun _ => True) (by cases readString strict i <;> trivial)
        fun s _ _ => .string s
    · split
      · trivial
      split
      · exact .array nofun
      · exact (reads_readItems strict _ fuel _).bind fun _ _ h => .array h
    · split
      · trivial
      split
      · exact .object nofun
      · exact (reads_readEntries strict _ fuel [] _ nofun).bind fun _ _ h => .object h
    · exact reads_readScalar i

theorem reads_readItems (strict : Bool) : (levels fuel : Nat) → (i : Input) →
    Reads (fun vs => ∀ v ∈ vs, HasCanonicalFloats v) (readItems strict levels fuel i)
  | _, 0, _ => trivial
  | levels, fuel + 1, i => by
    simp only [readItems]
    refine (reads_readValue strict levels fuel i).bind fun v _ hv => ?_
    split
    · exact List.forall_mem_singleton.mpr hv
    · exact (reads_readItems strict _ fuel _).bind fun vs _ hvs => List.forall_mem_cons.mpr ⟨hv, hvs⟩
    · trivial

theorem reads_readEntries (strict : Bool) : (levels fuel : Nat) → (entries : List (JsonString × Json)) →
    (i : Input) → (∀ e ∈ entries, HasCanonicalFloats e.2) →
    Reads (fun es => ∀ e ∈ es, HasCanonicalFloats e.2) (readEntries strict levels fuel entries i)
  | _, 0, _, _, _ => trivial
  | levels, fuel + 1, entries, i, h => by
    simp only [readEntries]
    split
    · refine Reads.bind (P := fun _ => True) (by cases readString strict i <;> trivial)
        fun key _ _ => ?_
      dsimp only
      split
      · refine (reads_readValue strict levels fuel _).bind fun v _ hv => ?_
        have hall : ∀ e ∈ Entries.put key v entries, HasCanonicalFloats e.2 := fun e he =>
          (Entries.mem_put he).elim (fun he => he ▸ hv) (h e)
        dsimp only
        split
        · exact hall
        · exact reads_readEntries strict _ fuel _ _ hall
        · trivial
      · trivial
    · trivial

end

/-- The data of a text. -/
theorem read_canonical {strict : Bool} {levels : Nat} {text : List Char} {v : Json}
    (h : read strict levels text = .ok v) : v.HasCanonicalFloats := by
  have hvalue := reads_readValue strict levels (2 * text.length + 2) (skipBlanks (Input.ofText text))
  simp only [read] at h
  split at h
  · exact nomatch h
  · cases hread : readValue strict levels (2 * text.length + 2) (skipBlanks (Input.ofText text)) with
    | error e =>
      rw [hread] at h
      exact nomatch h
    | ok x =>
      rw [hread] at h hvalue
      have hfinish : finish x.1 x.2 = .ok v := h
      simp only [finish] at hfinish
      split at hfinish
      · exact Except.ok.inj hfinish ▸ hvalue
      · exact nomatch hfinish

end Json

namespace Numeral

theorem magnitude?_canonical {negative : Bool} {cs : List Char} {x : Binary64}
    (h : magnitude? negative cs = some x) : x.IsCanonical := by
  simp only [magnitude?, Option.ite_none_left_eq_some, Option.map_eq_some_iff] at h
  obtain ⟨-, p, -, rfl⟩ := h
  exact Binary64.ofDecimal_isCanonical _ _ _

theorem signedFloat?_canonical {cs : List Char} {x : Binary64} (h : signedFloat? cs = some x) :
    x.IsCanonical := by
  have hunsigned {negative : Bool} {cs : List Char} (h : unsignedFloat? negative cs = some x) :
      x.IsCanonical := by
    unfold unsignedFloat? at h
    dsimp only at h
    split at h
    · exact Option.some.inj h ▸ trivial
    split at h
    · exact Option.some.inj h ▸ trivial
    · exact magnitude?_canonical h
  unfold signedFloat? at h
  split at h <;> exact hunsigned h

theorem float?_canonical {cs : List Char} {x : Binary64} (h : float? cs = some x) :
    x.IsCanonical := by
  unfold float? at h
  dsimp only at h
  split at h
  · rename_i y hy
    exact Option.some.inj h ▸ signedFloat?_canonical hy
  · obtain ⟨t, -, ht⟩ := Option.bind_eq_some_iff.mp h
    exact signedFloat?_canonical ht

end Numeral

end GraphQLDoc
