/-
SecuritySystem/Lib/InetText.lean

Reading back what was written as a number or an address.

`inet_aton` takes octal and hex numbers and fewer than four of them, and `atoi`
takes anything; on a text as `inet_ntoa` or `printf` writes it, both give the
value that was written (`inetAton_dottedQuad`, `atoi_of_readNumeral`).
-/
import SecuritySystem.Lib.Inet
import SecuritySystem.Lib.Numerals

namespace CMem

open CString

/-! ### Numbers -/

theorem isdigit_of_digitValue {c : UInt8} {d : ℕ} (h : digitValue 10 c = some d) :
    isdigit c = true ∧ xdigit c = some d ∧ d < 10 := by
  unfold digitValue at h
  by_cases hc : 48 ≤ c.toNat ∧ c.toNat < 48 + min 10 10
  · rw [if_pos hc] at h
    obtain rfl := Option.some.inj h
    have hdigit : isdigit c = true :=
      decide_eq_true ⟨UInt8.le_iff_toNat_le.mpr hc.1, UInt8.le_iff_toNat_le.mpr (by
        have h9 : (57 : UInt8).toNat = 57 := rfl
        omega)⟩
    exact ⟨hdigit, if_pos hdigit, by omega⟩
  · rw [if_neg hc, if_neg (by omega)] at h
    cases h

/-- Digits are read to their end; `n` stands in front of them. -/
theorem spanDigits_of_mapM {s : List UInt8} {ds : List ℕ} (h : s.mapM (digitValue 10) = some ds)
    (n : ℕ) (rest : List UInt8) :
    spanDigits 10 n (s ++ rest) = spanDigits 10 (Nat.ofDigits 10 (ds.reverse ++ [n])) rest := by
  induction s generalizing ds n with
  | nil =>
    obtain rfl : [] = ds := Option.some.inj h
    rw [List.reverse_nil, List.nil_append, List.nil_append, Nat.ofDigits_singleton]
  | cons c s ih =>
    rw [List.mapM_cons] at h
    obtain ⟨d, hd, h⟩ := Option.bind_eq_some_iff.mp h
    obtain ⟨ds', hds', h⟩ := Option.bind_eq_some_iff.mp h
    obtain rfl := Option.some.inj h
    obtain ⟨-, hx, hlt⟩ := isdigit_of_digitValue hd
    rw [List.cons_append, spanDigits, hx]
    dsimp only
    rw [if_pos hlt, ih hds', List.reverse_cons, List.append_assoc, List.singleton_append]
    congr 1
    rw [Nat.ofDigits_append, Nat.ofDigits_append, Nat.ofDigits_singleton, Nat.ofDigits_cons,
      Nat.ofDigits_singleton, Nat.add_comm d]

/-- Behind them must not be another digit. -/
theorem spanDigits_of_readNumeral {s : List UInt8} {m : ℕ} (h : readNumeral 10 s = some m)
    {rest : List UInt8} (hrest : rest.head?.bind xdigit = none) :
    spanDigits 10 0 (s ++ rest) = (m, rest) := by
  obtain ⟨ds, hds, rfl⟩ := Option.map_eq_some_iff.mp h
  rw [spanDigits_of_mapM hds, Nat.ofDigits_append, Nat.ofDigits_singleton, Nat.mul_zero,
    Nat.add_zero]
  rcases rest with - | ⟨c, rest⟩
  · rfl
  · rw [spanDigits, show xdigit c = none from hrest]

/-- A number begins with a digit. -/
theorem head_of_readNumeral {c : UInt8} {s : List UInt8} {m : ℕ}
    (h : readNumeral 10 (c :: s) = some m) : isdigit c = true := by
  obtain ⟨ds, hds, -⟩ := Option.map_eq_some_iff.mp h
  rw [List.mapM_cons] at hds
  obtain ⟨d, hd, -⟩ := Option.bind_eq_some_iff.mp hds
  exact (isdigit_of_digitValue hd).1

/-- **`atoi` reads a number** that an `int` can hold. -/
theorem atoi_of_readNumeral {s : CString} (hne : s.bytes ≠ []) {m : ℕ}
    (h : readNumeral 10 s.bytes = some m) (hm : (m : ℤ) ≤ LONG_MAX) :
    atoi s = BitVec.ofNat 32 m := by
  have hend : ([] : List UInt8).head?.bind xdigit = none := rfl
  have hspan := spanDigits_of_readNumeral h hend
  rw [List.append_nil] at hspan
  obtain ⟨c, t, hs⟩ := List.exists_cons_of_ne_nil hne
  rw [hs] at h hspan
  -- the first character is a digit, so there are no blanks and no sign
  obtain ⟨hlow, -⟩ := of_decide_eq_true (head_of_readNumeral h)
  have hspace : ¬ isspace c = true := by
    intro hspace
    obtain rfl | ⟨-, hhigh⟩ := of_decide_eq_true hspace
    · exact absurd hlow (by decide)
    · exact absurd (UInt8.le_trans hlow hhigh) (by decide)
  have hminus : c ≠ 45 := by
    rintro rfl
    exact absurd hlow (by decide)
  have hplus : c ≠ 43 := by
    rintro rfl
    exact absurd hlow (by decide)
  rw [atoi, strtol, hs, List.dropWhile_cons_of_neg hspace]
  dsimp only
  rw [if_neg hminus, if_neg hplus, hspan, min_eq_right hm, BitVec.ofInt_natCast]

/-! ### Addresses -/

/-- The digits of a number, highest first. -/
def decimalDigits (n : ℕ) : List ℕ := if n = 0 then [0] else (Nat.digits 10 n).reverse

theorem decimalDigits_lt {n d : ℕ} (hd : d ∈ decimalDigits n) : d < 10 := by
  unfold decimalDigits at hd
  split at hd
  · rw [List.mem_singleton.mp hd]
    decide
  · exact Nat.digits_lt_base (by decide) (List.mem_reverse.mp hd)

theorem decimalDigits_ne_nil (n : ℕ) : decimalDigits n ≠ [] := by
  unfold decimalDigits
  split
  · exact List.cons_ne_nil _ _
  · next hn => exact List.reverse_ne_nil_iff.mpr (Nat.digits_ne_nil_iff_ne_zero.mpr hn)

theorem bytes_numeral (n : ℕ) : (numeral 10 n).bytes = (decimalDigits n).map digitChar := by
  have hchars : (decimalDigits n).map (fun d => .ofNat (if d < 10 then 48 + d else 55 + d)) =
      (decimalDigits n).map digitChar := by
    refine List.map_congr_left fun d hd => ?_
    rw [digitChar, if_pos (decimalDigits_lt hd), if_pos (decimalDigits_lt hd)]
  have hzero : ∀ d < 10, decide (digitChar d ≠ 0) = true := by decide
  show ((decimalDigits n).map _).takeWhile _ = _
  rw [hchars]
  refine List.takeWhile_eq_self_iff.mpr fun c hc => ?_
  obtain ⟨d, hd, rfl⟩ := List.mem_map.mp hc
  exact hzero d (decimalDigits_lt hd)

theorem readNumeral_numeral (n : ℕ) : readNumeral 10 (numeral 10 n).bytes = some n := by
  rw [bytes_numeral, readNumeral, mapM_digitValue (by decide) fun d hd => decimalDigits_lt hd,
    Option.map_some, decimalDigits]
  split
  · next hn =>
    rw [hn]
    rfl
  · rw [List.reverse_reverse, Nat.ofDigits_digits]

/-- Only zero begins with a zero. -/
theorem numeral_head {n : ℕ} (hn : n ≠ 0) : ∃ c t, (numeral 10 n).bytes = c :: t ∧ c ≠ 48 := by
  have hdigits : Nat.digits 10 n ≠ [] := Nat.digits_ne_nil_iff_ne_zero.mpr hn
  have hlast : (Nat.digits 10 n).getLast hdigits ≠ 0 := Nat.getLast_digit_ne_zero 10 hn
  have hlt : (Nat.digits 10 n).getLast hdigits < 10 :=
    Nat.digits_lt_base (by decide) (List.getLast_mem hdigits)
  have hchar : ∀ d < 10, d ≠ 0 → digitChar d ≠ 48 := by decide
  refine ⟨digitChar ((Nat.digits 10 n).getLast hdigits),
    ((Nat.digits 10 n).dropLast.reverse).map digitChar, ?_, hchar _ hlt hlast⟩
  rw [bytes_numeral, decimalDigits, if_neg hn, ← List.map_cons, ← List.reverse_concat,
    List.dropLast_append_getLast]

/-- An address, byte by byte in decimal. -/
def dottedQuad (a b c d : UInt8) : CString :=
  numeral 10 a.toNat ++ lit "." ++ numeral 10 b.toNat ++ lit "." ++ numeral 10 c.toNat ++ lit "." ++
    numeral 10 d.toNat

/-- The address in memory order: its first byte is the lowest. -/
def inetNtoa (addr : BitVec 32) : CString :=
  dottedQuad (.ofNat addr.toNat) (.ofNat (addr.toNat >>> 8)) (.ofNat (addr.toNat >>> 16))
    (.ofNat (addr.toNat >>> 24))

/-- What may stand behind a number of an address. -/
def EndsNumber (rest : List UInt8) : Prop := rest = [] ∨ ∃ rest', rest = 46 :: rest'

theorem strtoul_of_ne {c : UInt8} {s : List UInt8} (hc : c ≠ 48) :
    strtoul (c :: s) = spanDigits 10 0 (c :: s) := by
  unfold strtoul
  split
  · next heq => exact absurd (List.cons.inj heq).1 hc
  · next heq => exact absurd (List.cons.inj heq).1 hc
  · rfl

theorem strtoul_zero {rest : List UInt8} (hrest : EndsNumber rest) :
    strtoul (48 :: rest) = (0, rest) := by
  obtain rfl | ⟨rest', rfl⟩ := hrest
  · rfl
  · rcases rest' with - | ⟨c, rest'⟩ <;> rfl

/-- A number that `inet_ntoa` writes is taken as decimal. -/
theorem strtoul_numeral (n : ℕ) {rest : List UInt8} (hrest : EndsNumber rest) :
    strtoul ((numeral 10 n).bytes ++ rest) = (n, rest) := by
  by_cases hn : n = 0
  · subst hn
    exact strtoul_zero hrest
  · have hend : rest.head?.bind xdigit = none := by
      obtain rfl | ⟨rest', rfl⟩ := hrest <;> rfl
    have hspan := spanDigits_of_readNumeral (readNumeral_numeral n) hend
    obtain ⟨c, t, hbytes, hc⟩ := numeral_head hn
    rw [hbytes] at hspan ⊢
    rw [List.cons_append, strtoul_of_ne hc]
    exact hspan

theorem inetNumber_numeral {n : ℕ} (hn : n ≤ 0xffffffff) {rest : List UInt8}
    (hrest : EndsNumber rest) : inetNumber ((numeral 10 n).bytes ++ rest) = some (n, rest) := by
  have hdigit : ((((numeral 10 n).bytes ++ rest).head?).map isdigit).getD false = true := by
    obtain ⟨d, ds, hds⟩ := List.exists_cons_of_ne_nil (decimalDigits_ne_nil n)
    have hread := readNumeral_numeral n
    rw [bytes_numeral, hds, List.map_cons] at hread ⊢
    exact head_of_readNumeral hread
  rw [inetNumber, if_pos hdigit, strtoul_numeral n hrest]
  exact if_pos hn

/-- The numbers in front of a dot are bytes. -/
theorem inetParts_dot {k n : ℕ} (hn : n ≤ 0xff) (rest : List UInt8) :
    inetParts (k + 1) ((numeral 10 n).bytes ++ 46 :: rest) =
      (inetParts k rest).map fun r => (.ofNat n :: r.1, r.2.1, r.2.2) := by
  rw [inetParts, inetNumber_numeral (by omega) (.inr ⟨rest, rfl⟩)]
  show (if 0xff < n then none else _) = _
  rw [if_neg (Nat.not_lt.mpr hn)]
  rcases inetParts k rest with - | ⟨front, last, rest⟩ <;> rfl

theorem inetParts_last {n : ℕ} (hn : n ≤ 0xffffffff) :
    inetParts 0 (numeral 10 n).bytes = some ([], n, []) := by
  have hend : EndsNumber [] := .inl rfl
  have hnumber := inetNumber_numeral hn hend
  rw [List.append_nil] at hnumber
  rw [inetParts, hnumber]
  rfl

/-- **Writing and reading an address**: `inet_aton` takes a dotted quad for the
four bytes. -/
theorem inetAton_dottedQuad (a b c d : UInt8) :
    inetAton (dottedQuad a b c d) = some (BitVec.ofNat 32 (ofLe [a, b, c, d])) := by
  have hbyte : ∀ x : UInt8, x.toNat ≤ 0xff := fun x => Nat.le_of_lt_succ x.toNat_lt
  have hdot : (lit ".").bytes = [46] := by decide
  have hbytes : (dottedQuad a b c d).bytes = (numeral 10 a.toNat).bytes ++ 46 ::
      ((numeral 10 b.toNat).bytes ++ 46 :: ((numeral 10 c.toNat).bytes ++ 46 ::
        (numeral 10 d.toNat).bytes)) := by
    simp only [dottedQuad, bytes_append, hdot, List.append_assoc, List.cons_append,
      List.nil_append]
  -- three numbers with a dot, and one without
  have hparts : inetParts 3 (dottedQuad a b c d).bytes = some ([a, b, c], d.toNat, []) := by
    rw [hbytes, inetParts_dot (hbyte a), inetParts_dot (hbyte b), inetParts_dot (hbyte c),
      inetParts_last ((hbyte d).trans (by decide))]
    simp only [Option.map_some, UInt8.ofNat_toNat]
  rw [inetAton, hparts]
  show (if _ then _ else none) = _
  rw [if_pos ⟨rfl, d.toNat_lt⟩]
  show some (BitVec.ofNat 32 (ofLe ([a, b, c] ++ [UInt8.ofNat d.toNat]))) = _
  rw [UInt8.ofNat_toNat]
  rfl

end CMem
