/-
SecuritySystem/Firewall/Payload.lean

The payload printer of the firewall service.

`fw_print_payload` prints 16 bytes a line: the offset in five digits, the bytes
in hex with a gap behind the eighth, and the bytes as characters.  It reads
through a pointer into the packet, so the model reads at an offset of the
captured bytes, byte by byte, and a read behind their end is a fault.

The loop of `fw_print_payload` computes the length of a line as `16 % len_rem`,
which is 16 because it only goes round while more than 16 bytes remain; that
invariant is an argument of `printLoop`, and with it the loop terminates.

`dumpLines` says what is printed: one line for each 16 bytes, laid out as
`lineText`.  `fwPrintPayload_eq` is the function in these terms, for any offset
and length, in bounds or not.
-/
import SecuritySystem.Lib.Numerals
import SecuritySystem.Lib.Words

namespace SecuritySystem.Firewall

open CMem

/-- What is printed, byte by byte. -/
abbrev Text := List UInt8

/-- The byte at the end of a printed line. -/
def NEWLINE : UInt8 := 10

/-- `n` blanks -/
def spaces (n : ℕ) : Text := List.replicate n 32

/-- `isprint` in the C locale. -/
def isprint (c : UInt8) : Bool := 0x20 ≤ c && c ≤ 0x7e

/-- A byte in the character part; 46 is the dot. -/
def shown (c : UInt8) : UInt8 := if isprint c then c else 46

/-! ### The code -/

section Code

variable (packet : List UInt8)

/-- The first loop of `print_hex_ascii_line`, from its `i`-th round on with `n`
rounds to go. -/
def hexLoop : ℕ → ℕ → ℕ → Except Fault Text
  | _, _, 0 => .ok []
  | ch, i, n + 1 => do
    let c ← load packet ch
    let rest ← hexLoop (ch + 1) (i + 1) n
    return padded 16 2 c.toNat ++ spaces 1 ++ (if i = 7 then spaces 1 else []) ++ rest

/-- The last loop. -/
def asciiLoop : ℕ → ℕ → Except Fault Text
  | _, 0 => .ok []
  | ch, n + 1 => do
    let c ← load packet ch
    let rest ← asciiLoop (ch + 1) n
    return (if isprint c then c else 46) :: rest

/-- `print_hex_ascii_line`: the offset, the bytes in hex, the gap of a short line, the
characters. -/
def printHexAsciiLine (payload len offset : ℕ) : Except Fault Text := do
  let hex ← hexLoop packet payload 0 len
  let ascii ← asciiLoop packet payload len
  return padded 10 5 offset ++ spaces 3 ++ hex ++ (if len < 8 then spaces 1 else []) ++
    (if len < 16 then (List.replicate (16 - len) (spaces 3)).flatten else []) ++
    spaces 3 ++ ascii ++ [NEWLINE]

/-- The bytes that a line shows. -/
def LINE_WIDTH : ℕ := 16

/-- The loop of `fw_print_payload`. -/
def printLoop (ch lenRem offset : ℕ) (_more : LINE_WIDTH < lenRem) : Except Fault Text := do
  let lineLen := LINE_WIDTH % lenRem
  let line ← printHexAsciiLine packet ch lineLen offset
  if hlast : lenRem - lineLen ≤ LINE_WIDTH then
    let last ← printHexAsciiLine packet (ch + lineLen) (lenRem - lineLen) (offset + LINE_WIDTH)
    return line ++ last
  else
    let rest ← printLoop (ch + lineLen) (lenRem - lineLen) (offset + LINE_WIDTH)
      (Nat.not_le.mp hlast)
    return line ++ rest
termination_by lenRem
decreasing_by
  have hline : LINE_WIDTH % lenRem = LINE_WIDTH := Nat.mod_eq_of_lt _more
  have hpos : 0 < LINE_WIDTH := by decide
  omega

/-- `fw_print_payload` -/
def fwPrintPayload (payload : ℕ) (len : ℤ) : Except Fault Text :=
  if len ≤ 0 then .ok []
  else if h : len ≤ LINE_WIDTH then printHexAsciiLine packet payload len.toNat 0
  else printLoop packet payload len.toNat 0 (by omega)

end Code

/-! ### The layout of a line -/

/-- A byte in hex; a missing one is blank. -/
def hexCell : Option UInt8 → Text
  | some c => padded 16 2 c.toNat
  | none => spaces 2

/-- The columns of the bytes `i` to `i + n - 1` of a line, which shows `bytes`
from the `i`-th on. -/
def cells : ℕ → ℕ → List UInt8 → Text
  | _, 0, _ => []
  | i, n + 1, bytes =>
    hexCell bytes[0]? ++ spaces (if i = 7 then 2 else 1) ++ cells (i + 1) n bytes.tail

/-- A whole line without its newline. -/
def lineText (bytes : List UInt8) (offset : ℕ) : Text :=
  padded 10 5 offset ++ spaces 3 ++ cells 0 LINE_WIDTH bytes ++ spaces 3 ++ bytes.map shown

/-- The lines of a payload. -/
def dumpLines (bytes : List UInt8) (offset : ℕ) : List Text :=
  if bytes.length ≤ LINE_WIDTH then [lineText bytes offset]
  else lineText (bytes.take LINE_WIDTH) offset ::
    dumpLines (bytes.drop LINE_WIDTH) (offset + LINE_WIDTH)
termination_by bytes.length
decreasing_by
  have hpos : 0 < LINE_WIDTH := by decide
  rw [List.length_drop]
  omega

/-- What is printed. -/
def dump (bytes : List UInt8) (offset : ℕ) : Text :=
  (dumpLines bytes offset).flatMap (· ++ [NEWLINE])

/-- The hex part as the first loop leaves it. -/
def hexText : ℕ → List UInt8 → Text
  | _, [] => []
  | i, c :: bytes =>
    padded 16 2 c.toNat ++ spaces 1 ++ (if i = 7 then spaces 1 else []) ++ hexText (i + 1) bytes

theorem spaces_append (m n : ℕ) : spaces m ++ spaces n = spaces (m + n) :=
  List.replicate_append_replicate

/-- The gap of a line of `n` bytes, beginning with the `i`-th: one blank behind
the eighth byte. -/
def gap (i n : ℕ) : ℕ := if i ≤ 7 ∧ 7 < i + n then 1 else 0

theorem gap_zero (i : ℕ) : gap i 0 = 0 := if_neg (by omega)

theorem gap_succ (i n : ℕ) : gap i (n + 1) = (if i = 7 then 1 else 0) + gap (i + 1) n := by
  unfold gap
  split_ifs <;> omega

theorem cells_nil (i n : ℕ) : cells i n [] = spaces (3 * n + gap i n) := by
  induction n generalizing i with
  | zero =>
    rw [gap_zero]
    rfl
  | succ n ih =>
    show spaces 2 ++ spaces (if i = 7 then 2 else 1) ++ cells (i + 1) n [] = _
    rw [ih, spaces_append, spaces_append, gap_succ]
    congr 1
    split <;> omega

/-- Short lines: the blanks behind the bytes are the cells of the missing
ones. -/
theorem hexText_append_spaces {n : ℕ} {bytes : List UInt8} (h : bytes.length ≤ n) (i : ℕ) :
    hexText i bytes ++ spaces (3 * (n - bytes.length) +
      gap (i + bytes.length) (n - bytes.length)) = cells i n bytes := by
  induction bytes generalizing i n with
  | nil => exact (cells_nil i n).symm
  | cons c bytes ih =>
    rcases n with - | n
    · exact absurd h (by simp)
    have hrest := ih (Nat.le_of_succ_le_succ h) (i + 1)
    have hi : i + (bytes.length + 1) = i + 1 + bytes.length := by omega
    rw [List.length_cons, Nat.add_sub_add_right, hi, cells, List.tail_cons, ← hrest]
    show padded 16 2 c.toNat ++ spaces 1 ++ (if i = 7 then spaces 1 else []) ++ _ ++ _ =
      padded 16 2 c.toNat ++ _ ++ _
    simp only [List.append_assoc]
    split <;> rfl

theorem flatten_replicate_spaces (m n : ℕ) :
    (List.replicate m (spaces n)).flatten = spaces (n * m) := by
  induction m with
  | zero => rfl
  | succ m ih => rw [List.replicate_succ, List.flatten_cons, ih, spaces_append, Nat.mul_succ,
      Nat.add_comm]

/-- The two branches of the code on short lines add up to that. -/
theorem hexText_fill {bytes : List UInt8} (h : bytes.length ≤ LINE_WIDTH) :
    hexText 0 bytes ++ (if bytes.length < 8 then spaces 1 else []) ++
      (if bytes.length < 16 then (List.replicate (16 - bytes.length) (spaces 3)).flatten else []) =
      cells 0 LINE_WIDTH bytes := by
  have hlen : bytes.length ≤ 16 := h
  have hgap : gap (0 + bytes.length) (LINE_WIDTH - bytes.length) =
      if bytes.length < 8 then 1 else 0 := by
    unfold gap LINE_WIDTH
    split_ifs <;> omega
  rw [← hexText_append_spaces h, hgap, List.append_assoc, flatten_replicate_spaces, Nat.add_comm,
    ← spaces_append]
  congr 1
  by_cases h16 : bytes.length < 16
  · rw [if_pos h16, apply_ite spaces]
    rfl
  · have h8 : ¬ bytes.length < 8 := by omega
    have hzero : LINE_WIDTH - bytes.length = 0 := Nat.sub_eq_zero_of_le (Nat.not_lt.mp h16)
    rw [if_neg h16, if_neg h8, if_neg h8, hzero]
    rfl

/-! ### What the code prints -/

variable {packet : List UInt8}

/-- A loop that reads byte by byte reads its bytes, or goes out of bounds. -/
theorem hexLoop_eq {ch n : ℕ} (h : 0 < n ∨ ch ≤ packet.length) (i : ℕ) :
    hexLoop packet ch i n = (readAt packet ch n).map (hexText i) := by
  induction n generalizing ch i with
  | zero =>
    rw [readAt_zero (h.resolve_left (Nat.lt_irrefl 0))]
    rfl
  | succ n ih =>
    rw [hexLoop]
    by_cases hch : ch < packet.length
    · rw [readAt_succ hch, ih (.inr hch), load, dif_pos hch]
      cases readAt packet (ch + 1) n with
      | error e => rfl
      | ok bytes => rfl
    · rw [load_of_le (Nat.not_lt.mp hch), readAt_of_lt (by omega)]
      rfl

theorem asciiLoop_eq {ch n : ℕ} (h : 0 < n ∨ ch ≤ packet.length) :
    asciiLoop packet ch n = (readAt packet ch n).map (List.map shown) := by
  induction n generalizing ch with
  | zero =>
    rw [readAt_zero (h.resolve_left (Nat.lt_irrefl 0))]
    rfl
  | succ n ih =>
    rw [asciiLoop]
    by_cases hch : ch < packet.length
    · rw [readAt_succ hch, ih (.inr hch), load, dif_pos hch]
      cases readAt packet (ch + 1) n with
      | error e => rfl
      | ok bytes => rfl
    · rw [load_of_le (Nat.not_lt.mp hch), readAt_of_lt (by omega)]
      rfl

/-- `print_hex_ascii_line` on a line. -/
theorem printHexAsciiLine_eq {payload len : ℕ} (hpos : 0 < len) (hlen : len ≤ LINE_WIDTH)
    (offset : ℕ) :
    printHexAsciiLine packet payload len offset =
      (readAt packet payload len).map fun bytes => lineText bytes offset ++ [NEWLINE] := by
  rw [printHexAsciiLine, hexLoop_eq (.inl hpos), asciiLoop_eq (.inl hpos)]
  cases hread : readAt packet payload len with
  | error e => rfl
  | ok bytes =>
    obtain rfl := length_of_readAt hread
    have hfill := hexText_fill hlen
    rw [List.append_assoc] at hfill
    show Except.ok _ = Except.ok _
    simp only [lineText, ← hfill, List.append_assoc]

theorem dump_of_le {bytes : List UInt8} (h : bytes.length ≤ LINE_WIDTH) (offset : ℕ) :
    dump bytes offset = lineText bytes offset ++ [NEWLINE] := by
  rw [dump, dumpLines, if_pos h, List.flatMap_singleton]

/-- A payload that fits one line. -/
theorem printHexAsciiLine_dump {payload len : ℕ} (hpos : 0 < len) (hlen : len ≤ LINE_WIDTH)
    (offset : ℕ) :
    printHexAsciiLine packet payload len offset =
      (readAt packet payload len).map (dump · offset) := by
  rw [printHexAsciiLine_eq hpos hlen]
  cases hread : readAt packet payload len with
  | error e => rfl
  | ok bytes =>
    have hle : bytes.length ≤ LINE_WIDTH := (length_of_readAt hread).symm ▸ hlen
    exact congrArg Except.ok (dump_of_le hle offset).symm

theorem dump_append {x y : List UInt8} (hx : x.length = LINE_WIDTH) (hy : 0 < y.length)
    (offset : ℕ) :
    dump (x ++ y) offset = lineText x offset ++ [NEWLINE] ++ dump y (offset + LINE_WIDTH) := by
  have hlen : ¬ (x ++ y).length ≤ LINE_WIDTH := by
    rw [List.length_append]
    omega
  rw [dump, dumpLines, if_neg hlen, List.flatMap_cons, List.take_left' hx, List.drop_left' hx]
  rfl

/-- The loop prints full lines; the last round prints two. -/
theorem printLoop_last {ch lenRem offset : ℕ} (h : LINE_WIDTH < lenRem)
    (hlast : lenRem - LINE_WIDTH ≤ LINE_WIDTH) :
    printLoop packet ch lenRem offset h = do
      let line ← printHexAsciiLine packet ch LINE_WIDTH offset
      let last ← printHexAsciiLine packet (ch + LINE_WIDTH) (lenRem - LINE_WIDTH)
        (offset + LINE_WIDTH)
      return line ++ last := by
  rw [printLoop]
  simp only [Nat.mod_eq_of_lt h, dif_pos hlast]

theorem printLoop_more {ch lenRem offset : ℕ} (h : LINE_WIDTH < lenRem)
    (hmore : LINE_WIDTH < lenRem - LINE_WIDTH) :
    printLoop packet ch lenRem offset h = do
      let line ← printHexAsciiLine packet ch LINE_WIDTH offset
      let rest ← printLoop packet (ch + LINE_WIDTH) (lenRem - LINE_WIDTH) (offset + LINE_WIDTH)
        hmore
      return line ++ rest := by
  rw [printLoop]
  simp only [Nat.mod_eq_of_lt h, dif_neg (Nat.not_le.mpr hmore)]

/-- A line, and then the rest. -/
theorem line_then {ch n offset : ℕ} (hn : 0 < n) :
    (do let line ← printHexAsciiLine packet ch LINE_WIDTH offset
        let rest ← (readAt packet (ch + LINE_WIDTH) n).map (dump · (offset + LINE_WIDTH))
        return line ++ rest : Except Fault Text) =
      (readAt packet ch (LINE_WIDTH + n)).map (dump · offset) := by
  rw [printHexAsciiLine_eq (by decide) (Nat.le_refl _), readAt_add]
  cases hx : readAt packet ch LINE_WIDTH with
  | error e => rfl
  | ok x =>
    cases hy : readAt packet (ch + LINE_WIDTH) n with
    | error e => rfl
    | ok y =>
      have hlen : 0 < y.length := (length_of_readAt hy).symm ▸ hn
      exact congrArg Except.ok (dump_append (length_of_readAt hx) hlen offset).symm

/-- **The loop**: the lines of the remaining bytes. -/
theorem printLoop_eq {ch lenRem offset : ℕ} (h : LINE_WIDTH < lenRem) :
    printLoop packet ch lenRem offset h = (readAt packet ch lenRem).map (dump · offset) := by
  induction lenRem using Nat.strong_induction_on generalizing ch offset with
  | _ lenRem ih =>
    have hpos : 0 < LINE_WIDTH := by decide
    have hrest : 0 < lenRem - LINE_WIDTH := Nat.sub_pos_of_lt h
    have hsum : LINE_WIDTH + (lenRem - LINE_WIDTH) = lenRem := Nat.add_sub_of_le h.le
    by_cases hlast : lenRem - LINE_WIDTH ≤ LINE_WIDTH
    · rw [printLoop_last h hlast, printHexAsciiLine_dump hrest hlast, line_then hrest, hsum]
    · rw [printLoop_more h (Nat.not_le.mp hlast), ih _ (by omega), line_then hrest, hsum]

/-- **`fw_print_payload`**, in bounds or not. -/
theorem fwPrintPayload_eq {payload : ℕ} {len : ℤ} (h : 0 < len) :
    fwPrintPayload packet payload len = (readAt packet payload len.toNat).map (dump · 0) := by
  have hpos : 0 < len.toNat := Int.lt_toNat.mpr h
  rw [fwPrintPayload, if_neg (Int.not_le.mpr h)]
  split
  · next hle => exact printHexAsciiLine_dump hpos (Int.toNat_le.mpr hle) 0
  · exact printLoop_eq _

end SecuritySystem.Firewall
