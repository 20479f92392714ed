import Mathlib.Algebra.Ring.Nat
import GraphQLDoc.Number.Numeral
import GraphQLDoc.Number.Text
import GraphQLDoc.Json.Reader
import GraphQLDoc.Json.Writer
import GraphQLDoc.Proofs.Token.Number

/-!
Numbers in digits and back: decimal digits have no zero in front, the text of a number denotes a
decimal, and four hexadecimal digits hold a unit of 16 bits.
-/
namespace GraphQLDoc

theorem isDigit_digitChar {n : Nat} (h : n < 10) : isDigit n.digitChar = true := by
  have hall : ∀ n < 10, isDigit (Nat.digitChar n) = true := by decide
  exact hall n h

theorem natText_lt {n : Nat} (h : n < 10) : natText n = [n.digitChar] :=
  Nat.toDigits_of_lt_base h

theorem natText_le {n : Nat} (h : 10 ≤ n) : natText n = natText (n / 10) ++ [(n % 10).digitChar] :=
  Nat.toDigits_of_base_le (by decide) h

theorem areDigits_natText (n : Nat) : AreDigits (natText n) := by
  induction n using Nat.strongRecOn with
  | ind n ih =>
    intro c hc
    by_cases h : n < 10
    · rw [natText_lt h] at hc
      rw [List.mem_singleton.mp hc]
      exact isDigit_digitChar h
    · rw [natText_le (Nat.le_of_not_lt h)] at hc
      rcases List.mem_append.mp hc with hc | hc
      · exact ih (n / 10) (by omega) c hc
      · rw [List.mem_singleton.mp hc]
        exact isDigit_digitChar (Nat.mod_lt n (by decide))

theorem natText_ne_nil (n : Nat) : natText n ≠ [] := Nat.toDigits_ne_nil

theorem head?_natText {n : Nat} (hn : n ≠ 0) : (natText n).head? ≠ some '0' := by
  induction n using Nat.strongRecOn with
  | ind n ih =>
    by_cases h : n < 10
    · rw [natText_lt h]
      simpa using hn
    · have h : 10 ≤ n := Nat.le_of_not_lt h
      obtain ⟨d, ds, hds⟩ := List.exists_cons_of_ne_nil (natText_ne_nil (n / 10))
      have hhead := ih (n / 10) (by omega) (by omega)
      rw [natText_le h]
      rw [hds] at hhead ⊢
      exact hhead

theorem isWhole_natText (n : Nat) : Pattern.IsWhole (natText n) where
  digits := areDigits_natText n
  nonempty := natText_ne_nil n
  leading := by
    by_cases h : n = 0
    · subst h
      exact .inl rfl
    · exact .inr (head?_natText h)

theorem digitsValue_concat (cs : List Char) (c : Char) :
    Numeral.digitsValue (cs ++ [c]) = 10 * Numeral.digitsValue cs + (c.toNat - '0'.toNat) := by
  simp [Numeral.digitsValue]

theorem digitsValue_natText (n : Nat) : Numeral.digitsValue (natText n) = n := by
  induction n using Nat.strongRecOn with
  | ind n ih =>
    by_cases h : n < 10
    · rw [natText_lt h, ← List.nil_append [n.digitChar], digitsValue_concat]
      exact (Nat.zero_add _).trans (Nat.toNat_digitChar_sub_48_of_lt_ten h)
    · have h : 10 ≤ n := Nat.le_of_not_lt h
      have hlast : (n % 10).digitChar.toNat - '0'.toNat = n % 10 :=
        Nat.toNat_digitChar_sub_48_of_lt_ten (Nat.mod_lt n (by decide))
      rw [natText_le h, digitsValue_concat, ih (n / 10) (by omega), hlast]
      omega

theorem digitsValue_append (cs ds : List Char) : Numeral.digitsValue (cs ++ ds) =
    Numeral.digitsValue cs * 10 ^ ds.length + Numeral.digitsValue ds := by
  have hfold (ds : List Char) (n : Nat) :
      ds.foldl (fun n c => 10 * n + (c.toNat - '0'.toNat)) n =
        n * 10 ^ ds.length + Numeral.digitsValue ds := by
    induction ds generalizing n with
    | nil => simp [Numeral.digitsValue]
    | cons d ds ih =>
      have hcons : Numeral.digitsValue (d :: ds) =
          (10 * 0 + (d.toNat - '0'.toNat)) * 10 ^ ds.length + Numeral.digitsValue ds := ih _
      rw [List.foldl_cons, ih, hcons, List.length_cons, Nat.pow_succ, Nat.add_mul, Nat.mul_assoc,
        Nat.mul_zero, Nat.zero_add, ← Nat.mul_assoc n]
      omega
  rw [Numeral.digitsValue, List.foldl_append, hfold]
  rfl

theorem digitsValue_zeros (k : Nat) : Numeral.digitsValue (List.replicate k '0') = 0 := by
  induction k with
  | zero => rfl
  | succ k ih => rw [List.replicate_succ', digitsValue_concat, ih]; rfl

namespace NumberText

/-- What the exponent of a number denotes. -/
def powerValue (t : NumberText) : Int :=
  let size : Int := Numeral.digitsValue (t.power.filter isDigit)
  if '-' ∈ t.power then -size else size

/-- The number without its sign. -/
def decimal (t : NumberText) : Decimal :=
  ⟨Numeral.digitsValue (t.whole ++ t.places), t.powerValue - t.places.length⟩

/-- The number that a text denotes. -/
def value (t : NumberText) : Binary64 :=
  .ofDecimal t.negative t.decimal.digits t.decimal.exponent

end NumberText

/-! Hexadecimal digits. -/

theorem hexDigit_digitChar {n : Nat} (h : n < 16) :
    isHexDigit n.digitChar = true ∧ hexValue n.digitChar = n := by
  have hall : ∀ n < 16, isHexDigit (Nat.digitChar n) = true ∧ hexValue (Nat.digitChar n) = n := by
    decide
  exact hall n h

theorem hexNumber_concat (cs : List Char) (c : Char) :
    Json.hexNumber (cs ++ [c]) = 16 * Json.hexNumber cs + hexValue c := by
  simp [Json.hexNumber]

theorem toDigits_hex (n : Nat) : (∀ c ∈ Nat.toDigits 16 n, isHexDigit c = true) ∧
    Json.hexNumber (Nat.toDigits 16 n) = n := by
  induction n using Nat.strongRecOn with
  | ind n ih =>
    by_cases h : n < 16
    · obtain ⟨hdigit, hvalue⟩ := hexDigit_digitChar h
      rw [Nat.toDigits_of_lt_base h]
      exact ⟨by simpa using hdigit, by simpa [Json.hexNumber] using hvalue⟩
    · have h : 16 ≤ n := Nat.le_of_not_lt h
      obtain ⟨hdigits, hnumber⟩ := ih (n / 16) (by omega)
      obtain ⟨hdigit, hvalue⟩ := hexDigit_digitChar (Nat.mod_lt n (show 0 < 16 by decide))
      rw [Nat.toDigits_of_base_le (by decide) h]
      refine ⟨fun c hc => ?_, ?_⟩
      · rcases List.mem_append.mp hc with hc | hc
        · exact hdigits c hc
        · rw [List.mem_singleton.mp hc]
          exact hdigit
      · rw [hexNumber_concat, hnumber, hvalue]
        omega

theorem hexNumber_zeros (k : Nat) (cs : List Char) :
    Json.hexNumber (List.replicate k '0' ++ cs) = Json.hexNumber cs := by
  induction k with
  | zero => rfl
  | succ k ih => exact ih

/-- Four hexadecimal digits hold a number below 2 ^ 16. -/
theorem hexDigits_four {n : Nat} (h : n < 0x10000) : (hexDigits 4 n).length = 4 ∧
    (∀ c ∈ hexDigits 4 n, isHexDigit c = true) ∧ Json.hexNumber (hexDigits 4 n) = n := by
  obtain ⟨hdigits, hnumber⟩ := toDigits_hex n
  have hlength : (Nat.toDigits 16 n).length ≤ 4 :=
    (Nat.length_toDigits_le_iff (by decide) (by decide)).mpr h
  refine ⟨?_, fun c hc => ?_, (hexNumber_zeros _ _).trans hnumber⟩
  · simp only [hexDigits, List.length_append, List.length_replicate]
    omega
  · rcases List.mem_append.mp hc with hc | hc
    · rw [(List.mem_replicate.mp hc).2]
      decide
    · exact hdigits c hc

end GraphQLDoc
