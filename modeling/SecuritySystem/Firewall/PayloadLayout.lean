/-
SecuritySystem/Firewall/PayloadLayout.lean

Reading a printed payload back.

A line is read by columns: the offset from the first five, the `i`-th byte from
the two at `hexColumn i`, the characters from column 60 on.  `DumpLine` says
what a reader finds there, whatever the length of the line: the fields of
missing bytes are blank, so no field depends on the others.

`fwPrintPayload_dump`: the lines of a payload read back as that payload.
-/
import SecuritySystem.Firewall.Payload

namespace SecuritySystem.Firewall

open CMem

variable {bytes : List UInt8} {offset : ℕ} {line : Text}

/-! ### Columns -/

/-- The digits of the offset. -/
def OFFSET_WIDTH : ℕ := 5

/-- The column of the first character. -/
def ASCII_COLUMN : ℕ := 60

/-- Where the `i`-th byte of a line stands. -/
def hexColumn (i : ℕ) : ℕ := 8 + 3 * i + if i < 8 then 0 else 1

/-- The byte that stands there, if one does. -/
def hexField (line : Text) (i : ℕ) : Option UInt8 :=
  (readNumeral 16 ((line.drop (hexColumn i)).take 2)).map UInt8.ofNat

/-- The bytes of a line, read field by field. -/
def readLine (line : Text) : List UInt8 := (List.range LINE_WIDTH).filterMap (hexField line)

/-- What a reader of the columns finds in a line. -/
structure DumpLine (line : Text) (bytes : List UInt8) (offset : ℕ) : Prop where
  width : line.length = ASCII_COLUMN + bytes.length
  offset : readNumeral 10 (line.take OFFSET_WIDTH) = some offset
  hex : ∀ i < LINE_WIDTH, hexField line i = bytes[i]?
  ascii : line.drop ASCII_COLUMN = bytes.map fun c => if 0x20 ≤ c ∧ c ≤ 0x7e then c else 46
  oneLine : NEWLINE ∉ line

/-! ### The hex part -/

theorem length_hexCell (o : Option UInt8) : (hexCell o).length = 2 := by
  cases o with
  | none => rfl
  | some c => exact length_padded (by decide) c.toNat_lt

theorem readNumeral_hexCell (o : Option UInt8) :
    (readNumeral 16 (hexCell o)).map UInt8.ofNat = o := by
  cases o with
  | none => decide
  | some c =>
    show (readNumeral 16 (padded 16 2 c.toNat)).map UInt8.ofNat = some c
    rw [readNumeral_padded (by decide) (by decide), Option.map_some, UInt8.ofNat_toNat]

theorem length_cell (i : ℕ) (o : Option UInt8) :
    (hexCell o ++ spaces (if i = 7 then 2 else 1)).length = 3 + if i = 7 then 1 else 0 := by
  rw [List.length_append, length_hexCell, spaces, List.length_replicate]
  split <;> rfl

theorem length_cells (i n : ℕ) (bytes : List UInt8) :
    (cells i n bytes).length = 3 * n + gap i n := by
  induction n generalizing i bytes with
  | zero =>
    rw [gap_zero]
    rfl
  | succ n ih =>
    rw [cells, List.length_append, length_cell, ih, gap_succ]
    omega

/-- The `j`-th cell is where the widths of the cells before put it. -/
theorem drop_cells {j n : ℕ} (h : j < n) (i : ℕ) (bytes : List UInt8) :
    ∃ rest, (cells i n bytes).drop (3 * j + gap i j) = hexCell bytes[j]? ++ rest := by
  induction j generalizing i n bytes with
  | zero =>
    obtain ⟨n, rfl⟩ := Nat.exists_eq_succ_of_ne_zero h.ne'
    rw [gap_zero, cells, List.append_assoc]
    exact ⟨_, rfl⟩
  | succ j ih =>
    obtain ⟨n, rfl⟩ := Nat.exists_eq_succ_of_ne_zero (Nat.ne_zero_of_lt h)
    obtain ⟨rest, hrest⟩ := ih (Nat.lt_of_succ_lt_succ h) (i + 1) bytes.tail
    have hcolumn : 3 * (j + 1) + gap i (j + 1) =
        (hexCell bytes[0]? ++ spaces (if i = 7 then 2 else 1)).length +
          (3 * j + gap (i + 1) j) := by
      rw [length_cell, gap_succ]
      omega
    refine ⟨rest, ?_⟩
    rw [cells, hcolumn, List.drop_length_add_append, hrest, List.getElem?_tail]

/-! ### A line -/

section Line

variable (ho : offset < 10 ^ OFFSET_WIDTH)

include ho

theorem length_padded_offset : (padded 10 5 offset).length = OFFSET_WIDTH :=
  length_padded (by decide) ho

/-- Eight columns stand before the hex part, and three between it and the
characters. -/
theorem length_offset_part : (padded 10 5 offset ++ spaces 3).length = 8 := by
  rw [List.length_append, length_padded_offset ho]
  rfl

theorem length_front :
    (padded 10 5 offset ++ spaces 3 ++ cells 0 LINE_WIDTH bytes ++ spaces 3).length =
      ASCII_COLUMN := by
  rw [List.length_append, List.length_append, length_offset_part ho, length_cells]
  rfl

theorem hexField_lineText {i : ℕ} (hi : i < LINE_WIDTH) :
    hexField (lineText bytes offset) i = bytes[i]? := by
  obtain ⟨rest, hrest⟩ := drop_cells hi 0 bytes
  have hcolumn : hexColumn i = (padded 10 5 offset ++ spaces 3).length + (3 * i + gap 0 i) := by
    rw [length_offset_part ho, hexColumn, gap, Nat.add_assoc]
    split_ifs <;> omega
  have hinside : 3 * i + gap 0 i ≤ (cells 0 LINE_WIDTH bytes).length := by
    rw [length_cells]
    unfold gap LINE_WIDTH at *
    split_ifs <;> omega
  have hfield : ((lineText bytes offset).drop (hexColumn i)).take 2 = hexCell bytes[i]? := by
    rw [lineText, List.append_assoc, List.append_assoc, hcolumn, List.drop_length_add_append,
      List.drop_append_of_le_length hinside, hrest, List.append_assoc]
    exact List.take_left' (length_hexCell _)
  rw [hexField, hfield, readNumeral_hexCell]

end Line

/-! ### No line breaks inside a line -/

theorem newline_not_mem_padded {base width n : ℕ} (hbase : 1 < base) (hbase' : base ≤ 16) :
    NEWLINE ∉ padded base width n := by
  have hdigit : ∀ d < 16, digitChar d ≠ NEWLINE := by decide
  intro h
  obtain ⟨d, hd, hchar⟩ := mem_padded hbase h
  exact hdigit d (hd.trans_le hbase') hchar

theorem newline_not_mem_spaces (n : ℕ) : NEWLINE ∉ spaces n := by
  intro h
  exact absurd (List.eq_of_mem_replicate h) (by decide)

theorem newline_not_mem_cells (i n : ℕ) (bytes : List UInt8) : NEWLINE ∉ cells i n bytes := by
  induction n generalizing i bytes with
  | zero => exact List.not_mem_nil
  | succ n ih =>
    have hcell : NEWLINE ∉ hexCell bytes[0]? := by
      cases bytes[0]? with
      | none => exact newline_not_mem_spaces 2
      | some c => exact newline_not_mem_padded (by decide) (by decide)
    rw [cells, List.mem_append, List.mem_append, not_or, not_or]
    exact ⟨⟨hcell, newline_not_mem_spaces _⟩, ih (i + 1) bytes.tail⟩

theorem shown_eq (c : UInt8) : shown c = if 0x20 ≤ c ∧ c ≤ 0x7e then c else 46 := by
  unfold shown isprint
  simp only [Bool.and_eq_true, decide_eq_true_eq]

theorem newline_not_mem_shown (bytes : List UInt8) : NEWLINE ∉ bytes.map shown := by
  intro h
  obtain ⟨c, -, hc⟩ := List.mem_map.mp h
  rw [shown_eq] at hc
  split at hc
  · next hprint =>
    rw [hc] at hprint
    exact absurd hprint (by decide)
  · exact absurd hc (by decide)

/-! ### The lines of a payload -/

/-- **A line**, whatever its length. -/
theorem dumpLine_lineText (bytes : List UInt8) (ho : offset < 10 ^ OFFSET_WIDTH) :
    DumpLine (lineText bytes offset) bytes offset where
  width := by
    rw [lineText, List.length_append, length_front ho, List.length_map]
  offset := by
    rw [lineText]
    simp only [List.append_assoc]
    rw [List.take_left' (length_padded_offset ho)]
    exact readNumeral_padded (by decide) (by decide) 5 offset
  hex := fun i hi => hexField_lineText ho hi
  ascii := by
    rw [lineText, List.drop_left' (length_front ho)]
    exact List.map_congr_left fun c _ => shown_eq c
  oneLine := by
    simp only [lineText, List.mem_append, not_or]
    exact ⟨⟨⟨⟨newline_not_mem_padded (by decide) (by decide), newline_not_mem_spaces 3⟩,
      newline_not_mem_cells _ _ bytes⟩, newline_not_mem_spaces 3⟩, newline_not_mem_shown bytes⟩

/-- Reading the fields of a line one after the other. -/
theorem filterMap_getElem? (bytes : List UInt8) (n : ℕ) :
    (List.range n).filterMap (bytes[·]?) = bytes.take n := by
  induction n with
  | zero => rfl
  | succ n ih =>
    have hlast : [n].filterMap (bytes[·]?) = bytes[n]?.toList := by
      rw [List.filterMap_cons]
      cases bytes[n]? with
      | none => rfl
      | some c => rfl
    rw [List.range_succ, List.filterMap_append, ih, hlast, List.take_add_one]

theorem DumpLine.read {line : Text} (h : DumpLine line bytes offset)
    (hlen : bytes.length ≤ LINE_WIDTH) : readLine line = bytes := by
  have hfields : ∀ i ∈ List.range LINE_WIDTH, hexField line i = bytes[i]? :=
    fun i hi => h.hex i (List.mem_range.mp hi)
  rw [readLine, List.filterMap_congr hfields, filterMap_getElem?,
    List.take_of_length_le hlen]

/-- The bytes of the `k`-th line. -/
def chunk (payload : List UInt8) (k : ℕ) : List UInt8 :=
  (payload.drop (LINE_WIDTH * k)).take LINE_WIDTH

theorem chunk_succ (payload : List UInt8) (k : ℕ) :
    chunk payload (k + 1) = chunk (payload.drop LINE_WIDTH) k := by
  rw [chunk, chunk, List.drop_drop, Nat.mul_succ, Nat.add_comm]

theorem length_dumpLines (hpos : 0 < bytes.length) :
    (dumpLines bytes offset).length = (bytes.length + 15) / 16 := by
  have hwidth : LINE_WIDTH = 16 := rfl
  induction bytes, offset using dumpLines.induct with
  | case1 bytes offset h =>
    rw [dumpLines, if_pos h, List.length_singleton]
    omega
  | case2 bytes offset h ih =>
    rw [dumpLines, if_neg h, List.length_cons]
    rw [List.length_drop] at ih
    rw [ih (by omega)]
    omega

theorem getElem?_dumpLines {k : ℕ} (h : (dumpLines bytes offset)[k]? = some line) :
    line = lineText (chunk bytes k) (offset + LINE_WIDTH * k) := by
  induction bytes, offset using dumpLines.induct generalizing k with
  | case1 bytes offset hle =>
    rw [dumpLines, if_pos hle] at h
    rcases k with - | k
    · rw [chunk, Nat.mul_zero, List.drop_zero, List.take_of_length_le hle]
      exact (Option.some.inj h).symm
    · cases h
  | case2 bytes offset hle ih =>
    rw [dumpLines, if_neg hle] at h
    rcases k with - | k
    · exact (Option.some.inj h).symm
    · rw [chunk_succ, ih h, Nat.mul_succ, Nat.add_comm (LINE_WIDTH * k), Nat.add_assoc]

/-- The lines read back, one after the other. -/
theorem flatMap_readLine (hpos : 0 < bytes.length)
    (ho : offset + bytes.length ≤ 10 ^ OFFSET_WIDTH) :
    (dumpLines bytes offset).flatMap readLine = bytes := by
  have hwidth : LINE_WIDTH = 16 := rfl
  induction bytes, offset using dumpLines.induct with
  | case1 bytes offset h =>
    rw [dumpLines, if_pos h, List.flatMap_singleton]
    exact (dumpLine_lineText bytes (by omega)).read h
  | case2 bytes offset h ih =>
    have hfirst : readLine (lineText (bytes.take LINE_WIDTH) offset) = bytes.take LINE_WIDTH :=
      (dumpLine_lineText _ (by omega)).read (List.length_take_le _ _)
    rw [List.length_drop] at ih
    rw [dumpLines, if_neg h, List.flatMap_cons, hfirst, ih (by omega) (by omega),
      List.take_append_drop]

/-- **A printed payload** of up to 65535 bytes, wherever it lies in memory: the
printer ends, each line shows its bytes at the fixed columns, all lines but the
last are full, and the lines read back as the payload. -/
theorem fwPrintPayload_dump (before payload behind : List UInt8) (hpos : 1 ≤ payload.length)
    (hlen : payload.length ≤ 65535) :
    ∃ lines : List Text,
      fwPrintPayload (before ++ (payload ++ behind)) before.length payload.length =
        .ok (lines.flatMap (· ++ [NEWLINE])) ∧
      lines.length = (payload.length + 15) / 16 ∧
      (∀ k line, lines[k]? = some line → DumpLine line (chunk payload k) (16 * k)) ∧
      (∀ k < lines.length, 1 ≤ (chunk payload k).length ∧ (chunk payload k).length ≤ 16 ∧
        (k + 1 < lines.length → (chunk payload k).length = 16)) ∧
      lines.flatMap readLine = payload := by
  have hwidth : LINE_WIDTH = 16 := rfl
  have hcount : (dumpLines payload 0).length = (payload.length + 15) / 16 := length_dumpLines hpos
  refine ⟨dumpLines payload 0, ?_, hcount, ?_, ?_, ?_⟩
  · rw [fwPrintPayload_eq (Int.natCast_pos.mpr hpos), Int.toNat_natCast, readAt_append]
    rfl
  · intro k line hline
    obtain ⟨hk, -⟩ := List.getElem?_eq_some_iff.mp hline
    have hcolumn : LINE_WIDTH * k = 16 * k := rfl
    have ho : 0 + LINE_WIDTH * k < 10 ^ OFFSET_WIDTH := by
      rw [hcount] at hk
      have hmax : 10 ^ OFFSET_WIDTH = 100000 := rfl
      omega
    have hread := dumpLine_lineText (chunk payload k) ho
    rw [← getElem?_dumpLines hline, Nat.zero_add] at hread
    exact hread
  · intro k hk
    have hcolumn : LINE_WIDTH * k = 16 * k := rfl
    rw [hcount] at hk ⊢
    rw [chunk, List.length_take, List.length_drop]
    omega
  · refine flatMap_readLine hpos ?_
    have hmax : 10 ^ OFFSET_WIDTH = 100000 := rfl
    omega

/-- The letters from "A" to "T". -/
def letters : List UInt8 := (List.range 20).map fun i => UInt8.ofNat (65 + i)

/-- 20 bytes behind a header of two: a full line, and one with the last four. -/
theorem fwPrintPayload_dump_letters :
    ∃ lines : List Text,
      fwPrintPayload ([0, 0] ++ (letters ++ [0])) 2 20 = .ok (lines.flatMap (· ++ [NEWLINE])) ∧
      lines.length = 2 ∧ (∀ line, lines[1]? = some line → DumpLine line [81, 82, 83, 84] 16) ∧
      lines.flatMap readLine = letters := by
  obtain ⟨lines, hprint, hcount, hline, -, hread⟩ :=
    fwPrintPayload_dump [0, 0] letters [0] (by decide) (by decide)
  exact ⟨lines, hprint, hcount, fun line h => hline 1 line h, hread⟩

end SecuritySystem.Firewall
