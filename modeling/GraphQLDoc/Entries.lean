/-!
Lists of entries with one value for each key, in the order in which the keys first came.
-/
namespace GraphQLDoc.Entries

/-- Sets the value of a key: in place if the key is there, else at the end. -/
def put {α β : Type} [DecidableEq α] (key : α) (value : β) : List (α × β) → List (α × β)
  | [] => [(key, value)]
  | (k, v) :: rest => if k = key then (k, value) :: rest else (k, v) :: put key value rest

def get? {α β : Type} [DecidableEq α] (key : α) : List (α × β) → Option β
  | [] => none
  | (k, v) :: rest => if k = key then some v else get? key rest

theorem get?_put {α β : Type} [DecidableEq α] (key k : α) (value : β) (es : List (α × β)) :
    get? k (put key value es) = if k = key then some value else get? k es := by
  induction es with
  | nil => simp only [put, get?, eq_comm]
  | cons e rest ih =>
    obtain ⟨k', v'⟩ := e
    by_cases h : k' = key
    · subst h; by_cases hk : k = k' <;> simp [put, get?, hk, eq_comm]
    · by_cases hk : k' = k
      · subst hk; simp [put, get?, h]
      · simp [put, get?, h, hk, ih]

end GraphQLDoc.Entries
