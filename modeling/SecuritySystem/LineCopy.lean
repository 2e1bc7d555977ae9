/-
SecuritySystem/LineCopy.lean

The arrays that the parsers copy a line to.

`tmp` and `slice_after_delimeter` are declared for each line, with as many bytes
as the line's end is away from the beginning of the text.  What is in front of
the line therefore decides whether there is room for its NUL: for the first line
there is none, for all the others there is.  The key goes to a buffer of fixed
size, which no line that is short enough fills.  The value begins two bytes
behind the delimiter; a line whose last byte is the delimiter has no such byte,
and the copy runs behind the NUL.

`completes_copyLine_iff` puts this together, and `handleLine_of_copyLine` says
that a line that is copied well is the one that the model of the parser handles.
-/
import SecuritySystem.Config

namespace SecuritySystem

open CMem

/-! ### The code -/

/-- The arrays, as they are before the line is copied: `before` is the offset at
which it starts. -/
structure LineArrays (bufSize before : ℕ) (line : List UInt8) where
  tmp : List UInt8
  beforeValue : List UInt8
  sliceAfterDelimeter : List UInt8
  length_tmp : tmp.length = before + line.length
  length_beforeValue : beforeValue.length = bufSize
  length_slice : sliceAfterDelimeter.length = before + line.length

/-- What the branches on the key go by. -/
inductive LineCopy
  | tooLong
  | noDelimiter
  | setting (beforeValue sliceAfterDelimeter : List UInt8)

section Code

variable (maxLen : ℕ) {bufSize before : ℕ} {line : List UInt8}

/-- From the copy to `tmp` to the copy of the value. -/
def copyLine (a : LineArrays bufSize before line) : Except Fault LineCopy := do
  let mem ← writeString a.tmp line
  let tmp := CString.ofMem mem
  if maxLen < tmp.strlen then return .tooLong
  else
    let index := parserGetIndexByParam tmp PARSER_DELIMETER
    if 0 > index then return .noDelimiter
    else
      let beforeValue ← writeString a.beforeValue (tmp.take index.toNat).bytes
      -- `tmp[index + 2]` must not be behind the NUL that was added
      if line.length < index.toNat + 2 then .error .outOfBounds
      else
        let value := CString.ofMem (line.drop (index.toNat + 2))
        let slice ← writeString a.sliceAfterDelimeter value.bytes
        return .setting beforeValue slice

end Code

/-- The line is not the first, and its value can be found if there is one. -/
def HasRoom (maxLen before : ℕ) (line : List UInt8) : Prop :=
  0 < before ∧ (maxLen < (CString.ofMem line).strlen ∨ ¬ HasDelimiter line ∨
    delimiterAt line + 2 ≤ line.length)

instance (maxLen before : ℕ) (line : List UInt8) : Decidable (HasRoom maxLen before line) :=
  inferInstanceAs (Decidable (_ ∧ _))

/-! ### What a copy does -/

section Spec

variable {maxLen bufSize before : ℕ} {line : List UInt8} {a : LineArrays bufSize before line}

/-- `tmp` has room for the NUL if something is in front of the line. -/
theorem completes_tmp_iff : Completes (writeString a.tmp line) ↔ 0 < before := by
  rw [completes_writeString_iff, a.length_tmp]
  omega

/-- What remains behind `tmp`, which reads as the line. -/
theorem copyLine_of_tmp {mem : List UInt8} (hmem : writeString a.tmp line = .ok mem)
    (hmax : maxLen ≤ PARSER_FILE_STROKE_MAX_LEN) :
    copyLine maxLen a =
      if maxLen < (CString.ofMem line).strlen then .ok .tooLong
      else if ¬ HasDelimiter line then .ok .noDelimiter
      else do
        let beforeValue ← writeString a.beforeValue (keyOf line).bytes
        if line.length < delimiterAt line + 2 then .error .outOfBounds
        else
          let slice ← writeString a.sliceAfterDelimeter (valueOf line).bytes
          return .setting beforeValue slice := by
  unfold copyLine
  rw [hmem]
  show (if maxLen < (CString.ofMem mem).strlen then _ else _) = _
  rw [ofMem_writeString hmem]
  by_cases hlong : maxLen < (CString.ofMem line).strlen
  · rw [if_pos hlong, if_pos hlong]
    rfl
  rw [if_neg hlong, if_neg hlong, index_eq ((Nat.not_lt.mp hlong).trans hmax)]
  by_cases hdelim : HasDelimiter line
  · have hindex : ¬ (0 : ℤ) > (delimiterAt line : ℤ) := by omega
    rw [if_pos hdelim, if_neg (not_not.mpr hdelim), if_neg hindex, Int.toNat_natCast]
    rfl
  · rw [if_neg hdelim, if_pos hdelim]
    rfl

/-- **The copies stay inside the arrays** exactly when something is in front of
the line, and its delimiter is not its last byte. -/
theorem completes_copyLine_iff (hmax : maxLen ≤ PARSER_FILE_STROKE_MAX_LEN)
    (hbuf : maxLen < bufSize) :
    Completes (copyLine maxLen a) ↔ HasRoom maxLen before line := by
  by_cases hbefore : 0 < before
  · obtain ⟨mem, hmem⟩ := completes_tmp_iff.mpr hbefore
    rw [copyLine_of_tmp hmem hmax, HasRoom, and_iff_right hbefore]
    by_cases hlong : maxLen < (CString.ofMem line).strlen
    · rw [if_pos hlong]
      exact iff_of_true (completes_ok _) (.inl hlong)
    rw [if_neg hlong, or_iff_right hlong]
    by_cases hdelim : HasDelimiter line
    · rw [if_neg (not_not.mpr hdelim), or_iff_right (not_not.mpr hdelim)]
      -- a line that is short enough does not fill `before_value`
      have hkey : (keyOf line).bytes.length ≤ (CString.ofMem line).strlen :=
        List.length_take_le' _ _
      obtain ⟨beforeValue, hbeforeValue⟩ :
          Completes (writeString a.beforeValue (keyOf line).bytes) := by
        rw [completes_writeString_iff, a.length_beforeValue]
        omega
      rw [hbeforeValue]
      show Completes (if _ then _ else _) ↔ _
      by_cases hshort : line.length < delimiterAt line + 2
      · rw [if_pos hshort]
        exact iff_of_false (fun ⟨_, h⟩ => nomatch h) (Nat.not_le.mpr hshort)
      · -- the value is shorter than the line, so its array has room for the NUL
        rw [if_neg hshort]
        refine iff_of_true (completes_bind_pure_iff.mpr ?_) (Nat.not_lt.mp hshort)
        have hvalue : (valueOf line).bytes.length ≤ (line.drop (delimiterAt line + 2)).length :=
          CString.strlen_ofMem_le _
        rw [List.length_drop] at hvalue
        rw [completes_writeString_iff, a.length_slice]
        omega
    · rw [if_pos hdelim]
      exact iff_of_true (completes_ok _) (.inl hdelim)
  · refine iff_of_false (fun hends => hbefore ?_) fun h => hbefore h.1
    exact completes_tmp_iff.mp ((completes_bind_iff.mp hends).imp fun _ h => h.1)

/-- What a line does with the result of its assignment. -/
def SetResult.onLine {σ : Type} (key value : CString) : SetResult σ → LineResult σ
  | .done s' => .applied key value s'
  | .unknown => .stopped
  | .failed why s' => .failed why s'

/-- **A line that was copied well** is handled as its key and its value say. -/
theorem handleLine_of_copyLine {σ : Type} {set : CString → CString → σ → Except Fault (SetResult σ)}
    (s : σ) (hmax : maxLen ≤ PARSER_FILE_STROKE_MAX_LEN) {c : LineCopy}
    (h : copyLine maxLen a = .ok c) :
    handleLine maxLen set line s = match c with
      | .tooLong => .ok (.failed .error s)
      | .noDelimiter => .ok .stopped
      | .setting key value =>
        (set (.ofMem key) (.ofMem value) s).map (SetResult.onLine (.ofMem key) (.ofMem value)) := by
  obtain ⟨mem, hmem, -⟩ := bind_eq_ok h
  rw [copyLine_of_tmp hmem hmax] at h
  unfold handleLine
  dsimp only
  by_cases hlong : maxLen < (CString.ofMem line).strlen
  · rw [if_pos hlong] at h
    obtain rfl := Except.ok.inj h
    exact if_pos hlong
  rw [if_neg hlong] at h
  rw [if_neg hlong, index_eq ((Nat.not_lt.mp hlong).trans hmax)]
  by_cases hdelim : HasDelimiter line
  · have hindex : ¬ (0 : ℤ) > (delimiterAt line : ℤ) := by omega
    rw [if_neg (not_not.mpr hdelim)] at h
    obtain ⟨beforeValue, hkey, h⟩ := bind_eq_ok h
    by_cases hshort : line.length < delimiterAt line + 2
    · rw [if_pos hshort] at h
      cases h
    rw [if_neg hshort] at h
    obtain ⟨slice, hvalue, h⟩ := bind_eq_ok h
    obtain rfl := Except.ok.inj h
    rw [if_pos hdelim, if_neg hindex, Int.toNat_natCast, if_neg hshort]
    -- the two arrays read as the key and the value
    have hkeyString : CString.ofMem beforeValue = keyOf line :=
      (ofMem_writeString hkey).trans (CString.ofMem_bytes _)
    have hvalueString : CString.ofMem slice = valueOf line :=
      (ofMem_writeString hvalue).trans (CString.ofMem_bytes _)
    dsimp only
    rw [hkeyString, hvalueString, keyOf, valueOf]
    rcases set _ _ s with e | r
    · rfl
    · cases r <;> rfl
  · rw [if_pos hdelim] at h
    obtain rfl := Except.ok.inj h
    rw [if_neg hdelim]
    rfl

end Spec

/-! ### Both parsers -/

/-- The size of `before_value` in the firewall. -/
def Firewall.FW_BUF_SIZE : ℕ := 512

open Backup Firewall

/-- **When the parsers keep within their arrays**, for a line at any offset and
whatever the arrays hold before. -/
theorem copyLine_inBounds_iff (before : ℕ) (line : List UInt8)
    (a : LineArrays HELPERS_BUF_SIZE before line) (b : LineArrays FW_BUF_SIZE before line) :
    (Completes (copyLine HELPERS_FILE_STROKE_MAX_LEN a) ↔
        HasRoom HELPERS_FILE_STROKE_MAX_LEN before line) ∧
      (Completes (copyLine PARSER_FILE_STROKE_MAX_LEN b) ↔
        HasRoom PARSER_FILE_STROKE_MAX_LEN before line) :=
  ⟨completes_copyLine_iff (by decide) (by decide), completes_copyLine_iff (by decide) (by decide)⟩

/-- The first line of the shipped configuration, and its arrays. -/
def firstLine : CString := CString.lit "path_to_dir: /home/k1rch/Music"

/-- All of them cleared. -/
def firstLineArrays (bufSize : ℕ) : LineArrays bufSize 0 firstLine.bytes where
  tmp := zeros firstLine.strlen
  beforeValue := zeros bufSize
  sliceAfterDelimeter := zeros firstLine.strlen
  length_tmp := (List.length_replicate ..).trans (Nat.zero_add _).symm
  length_beforeValue := List.length_replicate ..
  length_slice := (List.length_replicate ..).trans (Nat.zero_add _).symm

/-- Its NUL is written behind `tmp`. -/
theorem not_copyLine_inBounds_first :
    ¬ ∀ (before : ℕ) (line : List UInt8) (a : LineArrays HELPERS_BUF_SIZE before line)
        (b : LineArrays FW_BUF_SIZE before line),
      Completes (copyLine HELPERS_FILE_STROKE_MAX_LEN a) ∧
        Completes (copyLine PARSER_FILE_STROKE_MAX_LEN b) := by
  intro hall
  have hends := (hall 0 firstLine.bytes (firstLineArrays _) (firstLineArrays _)).1
  have hroom := (completes_copyLine_iff (by decide) (by decide)).mp hends
  exact absurd hroom.1 (Nat.lt_irrefl 0)

end SecuritySystem
