import GraphQLDoc.Number.Binary64
import GraphQLDoc.Text.Character
import GraphQLDoc.Token.Pattern

/-!
Numbers given as texts in data. An integer may have a sign, underscores between digits, and a
fraction of zeros; a float may also have a fraction, an exponent, or be one of the words for
infinity and not-a-number. Blanks around the number are passed over.
-/
namespace GraphQLDoc.Numeral

/-- The blanks of Unicode. -/
def isBlank (c : Char) : Bool :=
  let n := c.toNat
  (9 ≤ n && n ≤ 13) || n == 0x20 || n == 0x85 || n == 0xA0 || n == 0x1680 ||
    (0x2000 ≤ n && n ≤ 0x200A) || n == 0x2028 || n == 0x2029 || n == 0x202F || n == 0x205F ||
    n == 0x3000

def trim (blank : Char → Bool) (cs : List Char) : List Char :=
  ((cs.dropWhile blank).reverse.dropWhile blank).reverse

def digitsValue (cs : List Char) : Nat :=
  cs.foldl (fun n c => 10 * n + (c.toNat - '0'.toNat)) 0

/-- A run of digits with an optional minus sign. -/
def plainInt? : List Char → Option Int
  | '-' :: cs => if !cs.isEmpty && cs.all isDigit then some (-(digitsValue cs : Int)) else none
  | cs => if !cs.isEmpty && cs.all isDigit then some (digitsValue cs) else none

def hasDoubleUnderscore : List Char → Bool
  | '_' :: '_' :: _ => true
  | _ :: cs => hasDoubleUnderscore cs
  | [] => false

/-- The text without its underscores, which may be single ones inside. -/
def joinUnderscores? (cs : List Char) : Option (List Char) :=
  if cs.head? = some '_' ∨ cs.getLast? = some '_' ∨ hasDoubleUnderscore cs then none
  else some (cs.filter (· != '_'))

/-- What is left of a number behind zeros in front, the last of several zeros kept. -/
def dropZeros (zero : List Char) : List Char → Option (List Char)
  | [] => some zero
  | '0' :: cs => dropZeros ['0'] cs
  | '_' :: cs => dropZeros ['_'] cs
  | '.' :: cs => some (zero ++ '.' :: cs)
  | c :: cs => if isDigit c then some (c :: cs) else none

def leadingZeros? : List Char → Option (List Char)
  | '0' :: cs => dropZeros ['0'] cs
  | c :: cs => if isDigit c || c == '-' then some (c :: cs) else none
  | [] => none

/-- Drops a fraction of zeros, of which there has to be one. -/
def dropZeroFraction (cs : List Char) : List Char :=
  let whole := cs.takeWhile (· != '.')
  let places := cs.drop (whole.length + 1)
  if !places.isEmpty && places.all (· == '0') then whole else cs

/-- An integer as it is read: without blanks around it, zeros in front, a fraction and underscores. -/
def clean? (cs : List Char) : Option (List Char) :=
  match trim isBlank cs with
  | '+' :: '-' :: _ | '-' :: '_' :: _ => none
  | '+' :: rest => (leadingZeros? rest).bind fun n => joinUnderscores? (dropZeroFraction n)
  | rest => (leadingZeros? rest).bind fun n => joinUnderscores? (dropZeroFraction n)

def lower (cs : List Char) : List Char := cs.map Char.toLower

/-- An unsigned decimal: digits with a dot anywhere among them, and an optional exponent. -/
def magnitude? (negative : Bool) (cs : List Char) : Option Binary64 :=
  let whole := cs.takeWhile isDigit
  let afterWhole := cs.drop whole.length
  let places := match afterWhole with
    | '.' :: rest => rest.takeWhile isDigit
    | _ => []
  let afterPlaces := match afterWhole with
    | '.' :: rest => rest.drop places.length
    | rest => rest
  let power : Option Int := match afterPlaces with
    | [] => some 0
    | _ =>
      if Pattern.exponent afterPlaces = some afterPlaces.length then
        let size : Int := digitsValue (afterPlaces.filter isDigit)
        some (if '-' ∈ afterPlaces then -size else size)
      else none
  if (whole ++ places).isEmpty then none
  else power.map fun p => .ofDecimal negative (digitsValue (whole ++ places)) (p - places.length)

def unsignedFloat? (negative : Bool) (cs : List Char) : Option Binary64 :=
  let word := String.ofList (lower cs)
  if word == "inf" || word == "infinity" then some (.infinite negative)
  else if word == "nan" then some .nan
  else magnitude? negative cs

def signedFloat? : List Char → Option Binary64
  | '-' :: cs => unsignedFloat? true cs
  | '+' :: cs => unsignedFloat? false cs
  | cs => unsignedFloat? false cs

def float? (cs : List Char) : Option Binary64 :=
  let t := trim isBlank cs
  match signedFloat? t with
  | some x => some x
  | none => (joinUnderscores? t).bind signedFloat?

/-- The blanks of Unicode and the four separators among the control characters. -/
def isWideBlank (c : Char) : Bool := isBlank c || (0x1C ≤ c.toNat && c.toNat ≤ 0x1F)

/-- The text without blanks around it, every digit in its ASCII form. -/
def normalize (cs : List Char) : List Char :=
  (trim isWideBlank cs).map fun c =>
    match decimalDigit? c with
    | some d => Char.ofNat ('0'.toNat + d)
    | none => c

/-- The text without its underscores, each of which has to stand between two digits. -/
def joinDigits? : Bool → List Char → Option (List Char)
  | _, [] => some []
  | afterDigit, '_' :: c :: cs =>
    if afterDigit ∧ isDigit c then joinDigits? false (c :: cs) else none
  | _, ['_'] => none
  | _, c :: cs => (joinDigits? (isDigit c) cs).map (c :: ·)

/-- An integer written with a sign, digits of any script and underscores between them, as whether it
is negative and its digits. -/
def literalInt? (cs : List Char) : Option (Bool × List Char) :=
  let t := normalize cs
  let negative := t.head? = some '-'
  let unsigned := t.drop (Pattern.sign t)
  (joinDigits? false unsigned).bind fun digits =>
    if !digits.isEmpty && digits.all isDigit then some (negative, digits) else none

def literalFloat? (cs : List Char) : Option Binary64 :=
  (joinDigits? false (normalize cs)).bind signedFloat?

end GraphQLDoc.Numeral
