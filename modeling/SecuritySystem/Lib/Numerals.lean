/-
SecuritySystem/Lib/Numerals.lean

Numbers as text, in fields of a fixed width.

`padded base width n` is what `printf` makes of `%0<width>d` or `%0<width>x`:
the digits of `n`, filled up with zeros from the left.  `readNumeral` reads a
number back and takes nothing but digits; the two are inverse
(`readNumeral_padded`), and a number that fits has exactly the width of its
field (`length_padded`).
-/
import Mathlib.Data.Nat.Digits.Lemmas

namespace CMem

/-- The digit of value `d`, in lower case. -/
def digitChar (d : ℕ) : UInt8 := .ofNat (if d < 10 then 48 + d else 87 + d)

/-- The value of a digit to a base up to 16. -/
def digitValue (base : ℕ) (c : UInt8) : Option ℕ :=
  if 48 ≤ c.toNat ∧ c.toNat < 48 + min base 10 then some (c.toNat - 48)
  else if 97 ≤ c.toNat ∧ c.toNat < 87 + base then some (c.toNat - 87)
  else none

/-- A number in a field of a width, with leading zeros. -/
def padded (base width n : ℕ) : List UInt8 :=
  List.replicate (width - (base.digits n).length) 48 ++ (base.digits n).reverse.map digitChar

/-- The number that a field shows, if it holds digits only. -/
def readNumeral (base : ℕ) (field : List UInt8) : Option ℕ :=
  (field.mapM (digitValue base)).map fun ds => Nat.ofDigits base ds.reverse

theorem digitValue_digitChar {base d : ℕ} (hd : d < base) (hbase : base ≤ 16) :
    digitValue base (digitChar d) = some d := by
  have hd' : d < 16 := hd.trans_le hbase
  by_cases h10 : d < 10
  · have hchar : (digitChar d).toNat = 48 + d := by
      rw [digitChar, if_pos h10, UInt8.toNat_ofNat', Nat.mod_eq_of_lt (by omega)]
    rw [digitValue, hchar, if_pos (by omega)]
    exact congrArg some (Nat.add_sub_cancel_left ..)
  · have hchar : (digitChar d).toNat = 87 + d := by
      rw [digitChar, if_neg h10, UInt8.toNat_ofNat', Nat.mod_eq_of_lt (by omega)]
    rw [digitValue, hchar, if_neg (by omega), if_pos (by omega)]
    exact congrArg some (Nat.add_sub_cancel_left ..)

theorem mapM_digitValue {base : ℕ} (hbase : base ≤ 16) {ds : List ℕ} (hds : ∀ d ∈ ds, d < base) :
    (ds.map digitChar).mapM (digitValue base) = some ds := by
  induction ds with
  | nil => rfl
  | cons d ds ih =>
    have hd : d < base := hds d List.mem_cons_self
    rw [List.map_cons, List.mapM_cons, digitValue_digitChar hd hbase,
      ih fun d' hd' => hds d' (List.mem_cons_of_mem d hd')]
    rfl

/-- The digits of a padded number, the zeros in front included. -/
def paddedDigits (base width n : ℕ) : List ℕ :=
  List.replicate (width - (base.digits n).length) 0 ++ (base.digits n).reverse

theorem padded_eq_map (base width n : ℕ) :
    padded base width n = (paddedDigits base width n).map digitChar := by
  rw [paddedDigits, List.map_append, List.map_replicate]
  rfl

theorem paddedDigits_lt {base width n d : ℕ} (hbase : 1 < base)
    (hd : d ∈ paddedDigits base width n) : d < base := by
  rcases List.mem_append.mp hd with hd | hd
  · rw [List.eq_of_mem_replicate hd]
    omega
  · exact Nat.digits_lt_base hbase (List.mem_reverse.mp hd)

/-- Nothing but digits. -/
theorem mem_padded {base width n : ℕ} {c : UInt8} (hbase : 1 < base)
    (hc : c ∈ padded base width n) : ∃ d < base, digitChar d = c := by
  rw [padded_eq_map] at hc
  obtain ⟨d, hd, rfl⟩ := List.mem_map.mp hc
  exact ⟨d, paddedDigits_lt hbase hd, rfl⟩

/-- **Reading back** a padded number. -/
theorem readNumeral_padded {base : ℕ} (hbase : 1 < base) (hbase' : base ≤ 16) (width n : ℕ) :
    readNumeral base (padded base width n) = some n := by
  rw [readNumeral, padded_eq_map, mapM_digitValue hbase' fun d hd => paddedDigits_lt hbase hd,
    Option.map_some, paddedDigits, List.reverse_append, List.reverse_reverse,
    List.reverse_replicate, Nat.ofDigits_append_replicate_zero, Nat.ofDigits_digits]

theorem length_padded {base width n : ℕ} (hbase : 1 < base) (h : n < base ^ width) :
    (padded base width n).length = width := by
  have hle : (base.digits n).length ≤ width := (Nat.digits_length_le_iff hbase n).mpr h
  rw [padded, List.length_append, List.length_replicate, List.length_map, List.length_reverse]
  omega

end CMem
