import GraphQLDoc.Text.Utf8

/-!
UTF-8 is read back: the bytes that a text is written as are decoded to the text. A character of one
length after the other, by the ranges that its first byte allows for the second.
-/
namespace GraphQLDoc.Utf8

variable {b : UInt8} {bs rest : List UInt8} {l : Lead} {bits low high k n : Nat}

theorem toNat_ofNat (h : n < 0x100) : (UInt8.ofNat n).toNat = n := UInt8.toNat_ofNat_of_lt h

/-! What a first byte says. -/

theorem lead?_two (h : 2 ≤ n) (h' : n < 0x20) : lead? (n + 0xC0) = some ⟨n, 0x80, 0xBF, 0⟩ := by
  rw [lead?, if_neg (by omega), if_pos (by omega), Nat.add_sub_cancel]

theorem lead?_three (h : n < 0x10) : lead? (n + 0xE0) =
    some ⟨n, if n = 0 then 0xA0 else 0x80, if n = 0xD then 0x9F else 0xBF, 1⟩ := by
  rw [lead?, if_neg (by omega), if_neg (by omega), if_pos (by omega), Nat.add_sub_cancel]
  simp only [Nat.add_eq_right, show n + 0xE0 = 0xED ↔ n = 0xD by omega]

theorem lead?_four (h : n < 5) : lead? (n + 0xF0) =
    some ⟨n, if n = 0 then 0x90 else 0x80, if n = 4 then 0x8F else 0xBF, 2⟩ := by
  rw [lead?, if_neg (by omega), if_neg (by omega), if_neg (by omega), if_pos (by omega),
    Nat.add_sub_cancel]
  simp only [Nat.add_eq_right, show n + 0xF0 = 0xF4 ↔ n = 4 by omega]

/-! The bytes behind it. -/

/-- A byte that gives the last six bits of a number. -/
def tailByte (k : Nat) : UInt8 := UInt8.ofNat (k % 0x40 + 0x80)

theorem continued_last (hlow : low ≤ k % 0x40 + 0x80) (hhigh : k % 0x40 + 0x80 ≤ high) :
    continued bits low high 0 (tailByte k :: bs) = .ok (bits * 0x40 + k % 0x40, bs) := by
  have hbyte : (tailByte k).toNat = k % 0x40 + 0x80 := toNat_ofNat (by omega)
  rw [continued, hbyte, if_pos ⟨hlow, hhigh⟩, Nat.add_sub_cancel]

theorem continued_more {more : Nat} (hlow : low ≤ k % 0x40 + 0x80)
    (hhigh : k % 0x40 + 0x80 ≤ high) :
    continued bits low high (more + 1) (tailByte k :: bs) =
      continued (bits * 0x40 + k % 0x40) 0x80 0xBF more bs := by
  have hbyte : (tailByte k).toNat = k % 0x40 + 0x80 := toNat_ofNat (by omega)
  rw [continued, hbyte, if_pos ⟨hlow, hhigh⟩, Nat.add_sub_cancel]

/-- Tails with no bounds of their own. -/
theorem continued_tail : continued bits 0x80 0xBF 0 (tailByte k :: bs) =
    .ok (bits * 0x40 + k % 0x40, bs) :=
  continued_last (by omega) (by omega)

theorem continued_tails {j : Nat} :
    continued bits 0x80 0xBF 1 (tailByte j :: tailByte k :: bs) =
      .ok ((bits * 0x40 + j % 0x40) * 0x40 + k % 0x40, bs) := by
  rw [continued_more (by omega) (by omega), continued_tail]

/-! Whole characters. -/

/-- A first byte that is followed by others. -/
theorem next_lead (hb : 0x80 ≤ b.toNat) (hl : lead? b.toNat = some l)
    (h : continued l.bits l.low l.high l.more bs = .ok (n, rest)) :
    next b bs = .ok (Char.ofNat n, rest) := by
  rw [next, if_neg (Nat.not_lt.mpr hb), hl]
  show (continued l.bits l.low l.high l.more bs).map _ = _
  rw [h]
  rfl

theorem next_one (h : n < 0x80) : next (UInt8.ofNat n) rest = .ok (Char.ofNat n, rest) := by
  have hb : (UInt8.ofNat n).toNat = n := toNat_ofNat (by omega)
  rw [next, hb, if_pos h]

theorem next_two (h : 0x80 ≤ n) (h' : n < 0x800) :
    next (UInt8.ofNat (n / 0x40 + 0xC0)) (tailByte n :: rest) = .ok (Char.ofNat n, rest) := by
  have hb : (UInt8.ofNat (n / 0x40 + 0xC0)).toNat = n / 0x40 + 0xC0 := toNat_ofNat (by omega)
  have hpoint : n / 0x40 * 0x40 + n % 0x40 = n := by omega
  refine next_lead (by omega) (by rw [hb]; exact lead?_two (by omega) (by omega)) ?_
  rw [continued_tail]
  exact congrArg (fun point => Except.ok (point, rest)) hpoint

theorem next_three (h : 0x800 ≤ n) (h' : n < 0x10000) (hvalid : n < 0xD800 ∨ 0xDFFF < n) :
    next (UInt8.ofNat (n / 0x1000 + 0xE0)) (tailByte (n / 0x40) :: tailByte n :: rest) =
      .ok (Char.ofNat n, rest) := by
  have hb : (UInt8.ofNat (n / 0x1000 + 0xE0)).toNat = n / 0x1000 + 0xE0 := toNat_ofNat (by omega)
  refine next_lead (by omega) (by rw [hb]; exact lead?_three (by omega)) ?_
  have hlow : (if n / 0x1000 = 0 then 0xA0 else 0x80) ≤ n / 0x40 % 0x40 + 0x80 := by split <;> omega
  have hhigh : n / 0x40 % 0x40 + 0x80 ≤ (if n / 0x1000 = 0xD then 0x9F else 0xBF) := by
    split <;> omega
  have hpoint : (n / 0x1000 * 0x40 + n / 0x40 % 0x40) * 0x40 + n % 0x40 = n := by omega
  rw [continued_more hlow hhigh, continued_tail]
  exact congrArg (fun point => Except.ok (point, rest)) hpoint

theorem next_four (h : 0x10000 ≤ n) (h' : n < 0x110000) :
    next (UInt8.ofNat (n / 0x40000 + 0xF0))
      (tailByte (n / 0x1000) :: tailByte (n / 0x40) :: tailByte n :: rest) =
      .ok (Char.ofNat n, rest) := by
  have hb : (UInt8.ofNat (n / 0x40000 + 0xF0)).toNat = n / 0x40000 + 0xF0 := toNat_ofNat (by omega)
  refine next_lead (by omega) (by rw [hb]; exact lead?_four (by omega)) ?_
  have hlow : (if n / 0x40000 = 0 then 0x90 else 0x80) ≤ n / 0x1000 % 0x40 + 0x80 := by
    split <;> omega
  have hhigh : n / 0x1000 % 0x40 + 0x80 ≤ (if n / 0x40000 = 4 then 0x8F else 0xBF) := by
    split <;> omega
  have hpoint : ((n / 0x40000 * 0x40 + n / 0x1000 % 0x40) * 0x40 + n / 0x40 % 0x40) * 0x40 +
      n % 0x40 = n := by omega
  rw [continued_more hlow hhigh, continued_tails]
  exact congrArg (fun point => Except.ok (point, rest)) hpoint

/-- The bytes of a character are read as the character, whatever follows them. -/
theorem next_utf8EncodeChar (c : Char) (rest : List UInt8) :
    ∃ b bs, String.utf8EncodeChar c = b :: bs ∧ next b (bs ++ rest) = .ok (c, rest) := by
  have hvalid : c.toNat < 0xD800 ∨ 0xDFFF < c.toNat ∧ c.toNat < 0x110000 := c.valid
  have hbytes : String.utf8EncodeChar c = if c.toNat ≤ 0x7F then [UInt8.ofNat c.toNat]
      else if c.toNat ≤ 0x7FF then [UInt8.ofNat (c.toNat / 0x40 % 0x20 + 0xC0), tailByte c.toNat]
      else if c.toNat ≤ 0xFFFF then [UInt8.ofNat (c.toNat / 0x1000 % 0x10 + 0xE0),
        tailByte (c.toNat / 0x40), tailByte c.toNat]
      else [UInt8.ofNat (c.toNat / 0x40000 % 8 + 0xF0), tailByte (c.toNat / 0x1000),
        tailByte (c.toNat / 0x40), tailByte c.toNat] := rfl
  have hchar : Char.ofNat c.toNat = c := Char.ofNat_toNat c
  rw [hbytes]
  split
  · exact ⟨_, _, rfl, (next_one (by omega)).trans (by rw [hchar]; rfl)⟩
  split
  · rw [Nat.mod_eq_of_lt (by omega)]
    exact ⟨_, _, rfl, (next_two (by omega) (by omega)).trans (by rw [hchar]; rfl)⟩
  split
  · rw [Nat.mod_eq_of_lt (by omega)]
    exact ⟨_, _, rfl, (next_three (by omega) (by omega) (by omega)).trans (by rw [hchar]; rfl)⟩
  · rw [Nat.mod_eq_of_lt (by omega)]
    exact ⟨_, _, rfl, (next_four (by omega) (by omega)).trans (by rw [hchar]; rfl)⟩

theorem decodeWithin_encode (cs : List Char) (fuel : Nat) (hfuel : cs.length ≤ fuel) :
    decodeWithin fuel (encode cs) = .ok cs := by
  induction cs generalizing fuel with
  | nil => cases fuel <;> rfl
  | cons c cs ih =>
    obtain ⟨fuel, rfl⟩ : ∃ n, fuel = n + 1 :=
      Nat.exists_eq_succ_of_ne_zero (by rw [List.length_cons] at hfuel; omega)
    obtain ⟨b, bs, hbytes, hnext⟩ := next_utf8EncodeChar c (encode cs)
    have hencode : encode (c :: cs) = b :: (bs ++ encode cs) := by
      rw [encode, List.flatMap_cons, hbytes, encode, List.cons_append]
    rw [hencode, decodeWithin, hnext]
    show (do return c :: (← decodeWithin fuel (encode cs))) = _
    rw [ih fuel (Nat.le_of_succ_le_succ hfuel)]
    rfl

/-- A text has at least as many bytes as characters. -/
theorem length_le_encode (cs : List Char) : cs.length ≤ (encode cs).length := by
  induction cs with
  | nil => exact Nat.zero_le _
  | cons c cs ih =>
    have hchar := List.length_pos_iff.mpr (@String.utf8EncodeChar_ne_nil c)
    rw [encode, List.flatMap_cons, List.length_append, List.length_cons]
    rw [encode] at ih
    omega

/-- A text is read back from its bytes. -/
theorem decode_encode (cs : List Char) : decode (encode cs) = .ok cs :=
  decodeWithin_encode cs _ (length_le_encode cs)

end GraphQLDoc.Utf8
