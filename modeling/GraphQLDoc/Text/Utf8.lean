/-!
UTF-8. Decoding stops at the first byte that does not continue a character and tells what is wrong
with it. Overlong forms, surrogates and values beyond the last code point are ruled out by what may
stand behind the first byte.
-/
namespace GraphQLDoc.Utf8

inductive Fault where
  | start
  | continuation
  | truncated
deriving DecidableEq

def Fault.message : Fault → String
  | start => "invalid start byte"
  | continuation => "invalid continuation byte"
  | truncated => "unexpected end of data"

def encode (cs : List Char) : List UInt8 := cs.flatMap String.utf8EncodeChar

/-- What a first byte says: the bits it gives, the range of the byte behind it, and how many more
bytes follow that one. -/
structure Lead where
  bits : Nat
  low : Nat
  high : Nat
  more : Nat

def lead? (b : Nat) : Option Lead :=
  if b < 0xC2 then none
  else if b < 0xE0 then some ⟨b - 0xC0, 0x80, 0xBF, 0⟩
  else if b < 0xF0 then
    some ⟨b - 0xE0, if b = 0xE0 then 0xA0 else 0x80, if b = 0xED then 0x9F else 0xBF, 1⟩
  else if b < 0xF5 then
    some ⟨b - 0xF0, if b = 0xF0 then 0x90 else 0x80, if b = 0xF4 then 0x8F else 0xBF, 2⟩
  else none

/-- Reads the bytes behind a first byte: the code point, and what follows it. -/
def continued (bits low high : Nat) : Nat → List UInt8 → Except Fault (Nat × List UInt8)
  | _, [] => .error .truncated
  | more, b :: bs =>
    let n := b.toNat
    if low ≤ n ∧ n ≤ high then
      let point := bits * 0x40 + (n - 0x80)
      match more with
      | 0 => .ok (point, bs)
      | more + 1 => continued point 0x80 0xBF more bs
    else .error .continuation

/-- One character, and the bytes behind it. -/
def next (b : UInt8) (bs : List UInt8) : Except Fault (Char × List UInt8) :=
  if b.toNat < 0x80 then .ok (Char.ofNat b.toNat, bs)
  else match lead? b.toNat with
    | none => .error .start
    | some l => (continued l.bits l.low l.high l.more bs).map fun (n, rest) => (Char.ofNat n, rest)

def decodeWithin : Nat → List UInt8 → Except Fault (List Char)
  | _, [] => .ok []
  | 0, _ => .error .truncated
  | fuel + 1, b :: bs => do
    let (c, rest) ← next b bs
    return c :: (← decodeWithin fuel rest)

/-- The text that bytes encode. Every character takes at least one byte. -/
def decode (bytes : List UInt8) : Except Fault (List Char) := decodeWithin bytes.length bytes

end GraphQLDoc.Utf8
