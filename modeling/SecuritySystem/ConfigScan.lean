/-
SecuritySystem/ConfigScan.lean

Which configuration files the two parsers stay inside of.

A parser leaves its loop at the first line that it refuses; only a line with a
line feed behind it can be that line, since the scan for the line feed of the
last one has passed the buffer before anything is tested.  So a file of which
every closed line is taken is overrun, and the shipped ones are such files
(`staysInside_config_iff`).
-/
import SecuritySystem.LineScan
import SecuritySystem.Config

namespace SecuritySystem

open CMem CMem.CString

namespace Backup

/-! ### The backup service -/

/-- What the scan of `backup_parse_and_serialize_config` reads. -/
def backupReads (isDir : CString → Bool) (buffer : List UInt8) (s : BackupConfig) : List ℕ :=
  scanReads HELPERS_FILE_STROKE_MAX_LEN (backupSet isDir) [] 0 buffer s

/-- A string is copied to a buffer whole. -/
def fitsKind (size : ℕ) (value : CString) : LineKind :=
  if value.strlen ≤ size then .taken else .faulty

/-- A known key takes every value that its buffer has room for; the directory
must be one. -/
def backupSetKind (isDir : CString → Bool) (key value : CString) : LineKind :=
  if key = PATH_TO_DIR_DEFINE then
    if isDir value then fitsKind HELPERS_BUF_SIZE value else .refused
  else if key = PATH_TO_BACKUP_DEFINE then fitsKind HELPERS_AVER_BUFFER_SIZE value
  else if key = PATH_TO_LOGGER_DEFINE then fitsKind LOGGER_PATH_TO_LOG_LEN value
  else .refused

/-- The kind of a line of the backup service. -/
def backupLineKind (isDir : CString → Bool) : List UInt8 → LineKind :=
  lineKind HELPERS_FILE_STROKE_MAX_LEN (backupSetKind isDir)

/-- The buffers have their sizes. -/
structure Sized (s : BackupConfig) : Prop where
  pathToDirBuffer : s.pathToDirBuffer.length = HELPERS_BUF_SIZE
  pathToBackup : s.pathToBackup.length = HELPERS_AVER_BUFFER_SIZE
  pathToLog : s.pathToLog.length = LOGGER_PATH_TO_LOG_LEN

theorem sized_initial : Sized .initial :=
  ⟨List.length_replicate .., List.length_replicate .., List.length_replicate ..⟩

theorem completes_setPath_iff {path : List UInt8} {size : ℕ} (hsize : path.length = size)
    (hpos : 0 < size) (value : CString) :
    Completes (setPath path value) ↔ value.strlen ≤ size := by
  subst hsize
  constructor
  · rintro ⟨path', hset⟩
    obtain ⟨cleared, hcleared, hwrite⟩ := bind_eq_ok hset
    have hfits := completes_writeAt_iff.mp ⟨path', hwrite⟩
    rw [Nat.zero_add, length_writeAt hcleared] at hfits
    exact hfits
  · intro hle
    obtain ⟨path', hset, -⟩ := setPath_of_le hpos hle
    exact ⟨path', hset⟩

theorem assignmentIs_backupSet (isDir : CString → Bool) (key value : CString) (s : BackupConfig)
    (hs : Sized s) : AssignmentIs Sized (backupSetKind isDir key value)
      (backupSet isDir key value s) := by
  unfold backupSetKind backupSet
  by_cases hdir : key = PATH_TO_DIR_DEFINE
  · rw [if_pos hdir, if_pos hdir]
    by_cases hisDir : isDir value = true
    · rw [if_pos hisDir, if_pos hisDir, fitsKind]
      have hwrites : Completes (writeAt s.pathToDirBuffer 0 value.bytes) ↔
          value.strlen ≤ HELPERS_BUF_SIZE := by
        rw [completes_writeAt_iff, Nat.zero_add, hs.pathToDirBuffer]
        rfl
      by_cases hle : value.strlen ≤ HELPERS_BUF_SIZE
      · obtain ⟨path, hpath⟩ := hwrites.mpr hle
        rw [if_pos hle, hpath]
        exact ⟨_, rfl, (length_writeAt hpath).trans hs.pathToDirBuffer, hs.pathToBackup,
          hs.pathToLog⟩
      · rw [if_neg hle]
        exact fun hends => hle (hwrites.mp (completes_bind_pure_iff.mp hends))
    · rw [if_neg hisDir, if_neg hisDir]
      exact .inr ⟨.error, s, rfl⟩
  rw [if_neg hdir, if_neg hdir]
  by_cases hbackup : key = PATH_TO_BACKUP_DEFINE
  · rw [if_pos hbackup, if_pos hbackup]
    have hset := completes_setPath_iff hs.pathToBackup (by decide) value
    rw [fitsKind, backupSetPathToBackup]
    by_cases hle : value.strlen ≤ HELPERS_AVER_BUFFER_SIZE
    · obtain ⟨path, hpath⟩ := hset.mpr hle
      rw [if_pos hle, hpath]
      exact ⟨_, rfl, hs.pathToDirBuffer, (length_setPath hpath).trans hs.pathToBackup, hs.pathToLog⟩
    · rw [if_neg hle]
      intro hends
      exact hle (hset.mp (completes_bind_pure_iff.mp (completes_bind_pure_iff.mp hends)))
  rw [if_neg hbackup, if_neg hbackup]
  by_cases hlogger : key = PATH_TO_LOGGER_DEFINE
  · rw [if_pos hlogger, if_pos hlogger]
    have hset := completes_setPath_iff hs.pathToLog (by decide) value
    rw [fitsKind, loggerSetPathToLog]
    by_cases hle : value.strlen ≤ LOGGER_PATH_TO_LOG_LEN
    · obtain ⟨path, hpath⟩ := hset.mpr hle
      rw [if_pos hle, hpath]
      exact ⟨_, rfl, hs.pathToDirBuffer, hs.pathToBackup, (length_setPath hpath).trans hs.pathToLog⟩
    · rw [if_neg hle]
      intro hends
      exact hle (hset.mp (completes_bind_pure_iff.mp (completes_bind_pure_iff.mp hends)))
  · rw [if_neg hlogger, if_neg hlogger]
    exact .inl rfl

end Backup

namespace Firewall

/-! ### The firewall -/

/-- What the scan of `fw_parse_and_serialize_config` reads. -/
def fwReads (buffer : List UInt8) (attrs : FwAttrs) : List ℕ :=
  scanReads PARSER_FILE_STROKE_MAX_LEN fwSet [] 0 buffer attrs

/-- A string is copied to its offset, and as far behind its field as it reaches;
it must end inside `fw_config_attrs_t`. -/
def stringKind (off : ℕ) (value : CString) : LineKind :=
  if off + value.strlen ≤ ATTRS_SIZE then .taken else .faulty

/-- A network needs a slash, and a prefix that leaves room for the NUL. -/
def networkKind (value : CString) : LineKind :=
  if PARSER_SLASH ∈ value.bytes ∧ value.bytes.idxOf PARSER_SLASH < FW_IP_PREFIX_MAXLEN then
    if (inetAton (value.take (value.bytes.idxOf PARSER_SLASH))).isSome then .taken else .refused
  else .faulty

/-- What the value of a key makes of its line. -/
def fwSetKind (key value : CString) : LineKind :=
  if key = FW_INTERFACE_DEFINE then stringKind INTERFACE_OFFSET value
  else if key = FW_FILTER_DEFINE then stringKind FILTER_OFFSET value
  else if key = FW_PACKET_NUM_DEFINE then .taken
  else if key = FW_UNTRUSTED_NETWORK_DEFINE ∨ key = FW_TRUSTED_NETWORK_DEFINE then networkKind value
  else .refused

/-- The kind of a line of the firewall. -/
def fwLineKind : List UInt8 → LineKind := lineKind PARSER_FILE_STROKE_MAX_LEN fwSetKind

/-- All the parser knows of `fw_config_attrs_t` between two lines. -/
def Whole (attrs : FwAttrs) : Prop := attrs.length = ATTRS_SIZE

theorem whole_zeros : Whole (zeros ATTRS_SIZE) := List.length_replicate ..

variable {value : CString} {attrs : FwAttrs} {off : ℕ}

theorem assignmentIs_string (hattrs : Whole attrs) :
    AssignmentIs Whole (stringKind off value) (do
      let attrs ← writeAt attrs off value.bytes
      return .done attrs) := by
  unfold stringKind
  by_cases hle : off + value.strlen ≤ ATTRS_SIZE
  · rw [if_pos hle]
    obtain ⟨attrs', hwrite⟩ : Completes (writeAt attrs off value.bytes) :=
      completes_writeAt_iff.mpr (hattrs ▸ hle)
    rw [hwrite]
    exact ⟨attrs', rfl, (length_writeAt hwrite).trans hattrs⟩
  · rw [if_neg hle]
    intro hends
    exact hle (hattrs ▸ completes_writeAt_iff.mp (completes_bind_pure_iff.mp hends))

/-- The mask can be written. -/
theorem writeAt_mask (value : CString) (hattrs : Whole attrs)
    (hoff : off + NETWORK_SIZE ≤ ATTRS_SIZE) :
    ∃ attrs', writeAt attrs (off + 4) (wordBytes (netmaskOf value)) = .ok attrs' ∧
      Whole attrs' := by
  have hsize : NETWORK_SIZE = 8 := rfl
  obtain ⟨attrs', hmask⟩ : Completes (writeAt attrs (off + 4) (wordBytes (netmaskOf value))) := by
    rw [completes_writeAt_iff, length_wordBytes, hattrs]
    omega
  exact ⟨attrs', hmask, (length_writeAt hmask).trans hattrs⟩

theorem assignmentIs_network (hattrs : Whole attrs) (hoff : off + NETWORK_SIZE ≤ ATTRS_SIZE) :
    AssignmentIs Whole (networkKind value) (setNetworkAt off value attrs) := by
  unfold networkKind
  by_cases hfits : PARSER_SLASH ∈ value.bytes ∧ value.bytes.idxOf PARSER_SLASH < FW_IP_PREFIX_MAXLEN
  · rw [if_pos hfits]
    obtain ⟨attrs₁, hmask, hwhole⟩ := writeAt_mask value hattrs hoff
    unfold setNetworkAt
    rw [ipPrefixOf_of_lt hfits.1 hfits.2]
    show AssignmentIs _ _ (writeAt _ _ _ >>= fun attrs => _)
    rw [hmask, ok_bind]
    -- the mask is stored, whatever becomes of the address
    cases haddr : inetAton (value.take (value.bytes.idxOf PARSER_SLASH)) with
    | none => exact .inr ⟨.exited, attrs₁, rfl⟩
    | some addr =>
      obtain ⟨attrs₂, hword⟩ : Completes (writeAt attrs₁ off (wordBytes addr)) := by
        rw [completes_writeAt_iff, length_wordBytes, hwhole]
        exact (Nat.add_le_add_left (by decide) off).trans hoff
      refine ⟨attrs₂, ?_, (length_writeAt hword).trans hwhole⟩
      show (writeAt _ _ _ >>= fun attrs => _) = _
      rw [hword]
      rfl
  · rw [if_neg hfits]
    intro hends
    obtain ⟨ipPrefix, hprefix, -⟩ := completes_bind_iff.mp hends
    exact hfits (completes_ipPrefixOf_iff.mp ⟨ipPrefix, hprefix⟩)

theorem assignmentIs_fwSet (key value : CString) (attrs : FwAttrs) (hattrs : Whole attrs) :
    AssignmentIs Whole (fwSetKind key value) (fwSet key value attrs) := by
  unfold fwSetKind fwSet
  by_cases hinterface : key = FW_INTERFACE_DEFINE
  · rw [if_pos hinterface, if_pos hinterface]
    exact assignmentIs_string hattrs
  rw [if_neg hinterface, if_neg hinterface]
  by_cases hfilter : key = FW_FILTER_DEFINE
  · rw [if_pos hfilter, if_pos hfilter]
    exact assignmentIs_string hattrs
  rw [if_neg hfilter, if_neg hfilter]
  by_cases hpcts : key = FW_PACKET_NUM_DEFINE
  · rw [if_pos hpcts, if_pos hpcts]
    obtain ⟨attrs', hwrite⟩ :
        Completes (writeAt attrs PCTS_NUM_OFFSET (wordBytes (pctsNum value))) := by
      rw [completes_writeAt_iff, length_wordBytes, hattrs]
      decide
    rw [hwrite]
    exact ⟨attrs', rfl, (length_writeAt hwrite).trans hattrs⟩
  rw [if_neg hpcts, if_neg hpcts]
  by_cases huntrusted : key = FW_UNTRUSTED_NETWORK_DEFINE
  · rw [if_pos (.inl huntrusted), if_pos huntrusted]
    exact assignmentIs_network hattrs (by decide)
  rw [if_neg huntrusted]
  by_cases htrusted : key = FW_TRUSTED_NETWORK_DEFINE
  · rw [if_pos (.inr htrusted), if_pos htrusted]
    exact assignmentIs_network hattrs (by decide)
  · rw [if_neg (not_or.mpr ⟨huntrusted, htrusted⟩), if_neg htrusted]
    exact .inl rfl

end Firewall

open Backup Firewall

/-! ### Both parsers -/

/-- The buffer of a parser: a file, and zeros up to the size that was allocated. -/
def loaded (content : List UInt8) (k : ℕ) : List UInt8 := content ++ zeros k

/-- The backup service reads its configuration inside the buffer. -/
def BackupStaysInside (isDir : CString → Bool) (buffer : List UInt8) : Prop :=
  StaysInside buffer (backupReads isDir buffer .initial)
    (backupParseAndSerializeConfig isDir (some buffer) .initial)

/-- The firewall does. -/
def FwStaysInside (buffer : List UInt8) : Prop :=
  StaysInside buffer (fwReads buffer (zeros ATTRS_SIZE))
    (fwParseAndSerializeConfig (some buffer) (zeros ATTRS_SIZE))

theorem backupStaysInside_iff (isDir : CString → Bool) (content : List UInt8) (k : ℕ) :
    BackupStaysInside isDir (loaded content k) ↔ LeftInside (backupLineKind isDir) content :=
  staysInside_iff.trans (completes_lineLoop_iff
    (lineIs_lineKind (by decide) (assignmentIs_backupSet isDir)) sized_initial content k)

theorem fwStaysInside_iff (content : List UInt8) (k : ℕ) :
    FwStaysInside (loaded content k) ↔ LeftInside fwLineKind content :=
  staysInside_iff.trans (completes_lineLoop_iff
    (lineIs_lineKind (Nat.le_refl _) assignmentIs_fwSet) whole_zeros content k)

/-- **When the parsers stay inside their buffer**, over every file and any number
of zeros behind it: exactly when they leave the loop at a line that ends with a
line feed, and no line before that is faulty. -/
theorem staysInside_loaded_iff (isDir : CString → Bool) (content : List UInt8) (k : ℕ) :
    (BackupStaysInside isDir (loaded content k) ↔ LeftInside (backupLineKind isDir) content) ∧
      (FwStaysInside (loaded content k) ↔ LeftInside fwLineKind content) :=
  ⟨backupStaysInside_iff isDir content k, fwStaysInside_iff content k⟩

/-- The shipped configuration of the backup service: 123 bytes in a buffer of 504. -/
theorem not_staysInside_shipped :
    ¬ ∀ (isDir : CString → Bool) (content : List UInt8) (k : ℕ),
      BackupStaysInside isDir (loaded content k) ∧ FwStaysInside (loaded content k) := by
  intro hall
  have hstays := (hall (fun _ => true) backupShipped.bytes 381).1
  exact absurd ((backupStaysInside_iff _ _ _).mp hstays) (by decide +kernel)

/-- It is the byte behind the buffer that is read, if every closed line is taken. -/
theorem backupReads_overrun_iff (isDir : CString → Bool) (content : List UInt8) (k : ℕ) :
    (loaded content k).length ∈ backupReads isDir (loaded content k) .initial ↔
      ∀ line ∈ closedLines content, GoesOn (backupLineKind isDir) line := by
  have hmax : HELPERS_FILE_STROKE_MAX_LEN ≤ PARSER_FILE_STROKE_MAX_LEN := by decide
  have hoverrun := scanReads_overrun_iff
    (lineIs_lineKind hmax (assignmentIs_backupSet isDir)) sized_initial content k 0
  rwa [Nat.zero_add] at hoverrun

theorem fwReads_overrun_iff (content : List UInt8) (k : ℕ) :
    (loaded content k).length ∈ fwReads (loaded content k) (zeros ATTRS_SIZE) ↔
      ∀ line ∈ closedLines content, GoesOn fwLineKind line := by
  have hmax : PARSER_FILE_STROKE_MAX_LEN ≤ PARSER_FILE_STROKE_MAX_LEN := Nat.le_refl _
  have hoverrun := scanReads_overrun_iff (lineIs_lineKind hmax assignmentIs_fwSet)
    whole_zeros content k 0
  rwa [Nat.zero_add] at hoverrun

end SecuritySystem
