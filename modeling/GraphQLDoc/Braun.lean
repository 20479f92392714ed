/-!
Lists with quick access by number. The first element is at the root, the elements at odd places are
on one side and those at even places on the other, so that both sides are lists of the same kind.
-/
namespace GraphQLDoc

inductive Braun (α : Type) where
  | leaf
  | node (first : α) (odd even : Braun α)

namespace Braun

variable {α : Type}

def cons (a : α) : Braun α → Braun α
  | leaf => node a leaf leaf
  | node b odd even => node a (even.cons b) odd

def ofList (as : List α) : Braun α := as.foldr cons leaf

def get? : Braun α → Nat → Option α
  | leaf, _ => none
  | node a _ _, 0 => some a
  | node _ odd even, n + 1 =>
    match n % 2 with
    | 0 => odd.get? (n / 2)
    | _ => even.get? (n / 2)

/-- Replaces the element at a place, if there is one. -/
def set (a : α) : Braun α → Nat → Braun α
  | leaf, _ => leaf
  | node _ odd even, 0 => node a odd even
  | node b odd even, n + 1 =>
    match n % 2 with
    | 0 => node b (odd.set a (n / 2)) even
    | _ => node b odd (even.set a (n / 2))

theorem get?_cons_zero (a : α) (t : Braun α) : (t.cons a).get? 0 = some a := by
  cases t <;> rfl

theorem get?_cons_succ (a : α) (t : Braun α) (n : Nat) :
    (t.cons a).get? (n + 1) = t.get? n := by
  induction t generalizing a n with
  | leaf => cases h : n % 2 <;> simp [cons, get?, h]
  | node b odd even _ ih =>
    cases n with
    | zero => simpa [cons, get?] using get?_cons_zero b even
    | succ n =>
      rcases Nat.mod_two_eq_zero_or_one n with h | h
      · have hodd : (n + 1) % 2 = 1 := by omega
        have hhalf : (n + 1) / 2 = n / 2 := by omega
        simp only [cons, get?, h, hodd, hhalf]
      · have heven : (n + 1) % 2 = 0 := by omega
        have hhalf : (n + 1) / 2 = n / 2 + 1 := by omega
        simp only [cons, get?, h, heven, hhalf, ih]

theorem get?_ofList (as : List α) (n : Nat) : (ofList as).get? n = as[n]? := by
  induction as generalizing n with
  | nil => rfl
  | cons a as ih =>
    cases n with
    | zero => exact get?_cons_zero a _
    | succ n => rw [ofList, List.foldr_cons, get?_cons_succ, List.getElem?_cons_succ]; exact ih n

end Braun

end GraphQLDoc
