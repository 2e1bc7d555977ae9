/-
SecuritySystem/Backup/Config.lean

The configuration of the backup service.

The parser keeps three paths: the watched directory in a buffer of `start`, the
backup directory and the log file in static ones, all of them zero when the
service starts.  `strncpy` with the length of the value copies no NUL, so a
path that is set twice shows the last value only if no earlier one was longer;
the two static paths are cut to the empty string first, which helps nothing but
the empty value (`backup_effective_iff`).
-/
import SecuritySystem.Backup.Handler
import SecuritySystem.Parser

namespace SecuritySystem.Backup

open CMem CMem.CString

/-- The key of the directory to watch. -/
def PATH_TO_DIR_DEFINE : CString := lit "path_to_dir"

/-- The key of the backup directory. -/
def PATH_TO_BACKUP_DEFINE : CString := lit "path_to_backup"

/-- The key of the log file. -/
def PATH_TO_LOGGER_DEFINE : CString := lit "path_to_log"

/-- The size of `path_to_log`. -/
def LOGGER_PATH_TO_LOG_LEN : ℕ := 2048

/-- The longest line that is searched for its delimiter. -/
def HELPERS_FILE_STROKE_MAX_LEN : ℕ := 168

/-- What the parser fills: the buffer of `start`, `path_to_backup` and
`path_to_log`. -/
structure BackupConfig where
  pathToDirBuffer : List UInt8
  pathToBackup : List UInt8
  pathToLog : List UInt8

/-- The paths when the service starts. -/
def BackupConfig.initial : BackupConfig :=
  ⟨zeros HELPERS_BUF_SIZE, zeros HELPERS_AVER_BUFFER_SIZE, zeros LOGGER_PATH_TO_LOG_LEN⟩

/-- `strinit`, and `strncpy` with the length of the string. -/
def setPath (path : List UInt8) (set : CString) : Except Fault (List UInt8) := do
  let cleared ← writeAt path 0 [0]
  writeAt cleared 0 set.bytes

/-- `backup_set_path_to_backup`: the array is not cleared behind the new path. -/
def backupSetPathToBackup (set : CString) (s : BackupConfig) : Except Fault BackupConfig := do
  let path ← setPath s.pathToBackup set
  return { s with pathToBackup := path }

/-- `logger_set_path_to_log`, with the same two calls. -/
def loggerSetPathToLog (set : CString) (s : BackupConfig) : Except Fault BackupConfig := do
  let path ← setPath s.pathToLog set
  return { s with pathToLog := path }

section Parser

-- what `stat` says of a path: is it a directory?
variable (isDir : CString → Bool)

/-- The branches on the key. -/
def backupSet (beforeValue slice : CString) (s : BackupConfig) :
    Except Fault (SetResult BackupConfig) :=
  if beforeValue = PATH_TO_DIR_DEFINE then
    if isDir slice then do
      let path ← writeAt s.pathToDirBuffer 0 slice.bytes
      return .done { s with pathToDirBuffer := path }
    else .ok (.failed .error s)
  else if beforeValue = PATH_TO_BACKUP_DEFINE then do
    let s' ← backupSetPathToBackup slice s
    return .done s'
  else if beforeValue = PATH_TO_LOGGER_DEFINE then do
    let s' ← loggerSetPathToLog slice s
    return .done s'
  else .ok .unknown

/-- On the text that `parser_read_conf` has read; `none` is its null pointer. -/
def backupParseAndSerializeConfig (buffer : Option (List UInt8)) (s : BackupConfig) :
    Except Fault (Parsed BackupConfig) :=
  match buffer with
  | none => .ok ⟨some .error, s, []⟩
  | some buffer => lineLoop HELPERS_FILE_STROKE_MAX_LEN (backupSet isDir) [] buffer s

end Parser

/-! ### What a key does -/

/-- The keys of the service. -/
def backupKnown (key : CString) : Bool :=
  key = PATH_TO_DIR_DEFINE ∨ key = PATH_TO_BACKUP_DEFINE ∨ key = PATH_TO_LOGGER_DEFINE

variable {isDir : CString → Bool} {key value : CString} {s s' : BackupConfig}

theorem dir_ne_backup : PATH_TO_DIR_DEFINE ≠ PATH_TO_BACKUP_DEFINE := by decide

theorem dir_ne_logger : PATH_TO_DIR_DEFINE ≠ PATH_TO_LOGGER_DEFINE := by decide

theorem backup_ne_logger : PATH_TO_BACKUP_DEFINE ≠ PATH_TO_LOGGER_DEFINE := by decide

/-- What the branches can do. -/
theorem backupSet_cases {r : SetResult BackupConfig} (h : backupSet isDir key value s = .ok r) :
    (key = PATH_TO_DIR_DEFINE ∧ ((∃ path, writeAt s.pathToDirBuffer 0 value.bytes = .ok path ∧
        r = .done { s with pathToDirBuffer := path }) ∨ r = .failed .error s)) ∨
      (key = PATH_TO_BACKUP_DEFINE ∧ ∃ path, setPath s.pathToBackup value = .ok path ∧
        r = .done { s with pathToBackup := path }) ∨
      (key = PATH_TO_LOGGER_DEFINE ∧ ∃ path, setPath s.pathToLog value = .ok path ∧
        r = .done { s with pathToLog := path }) ∨
      (backupKnown key = false ∧ r = .unknown) := by
  unfold backupSet at h
  by_cases hdir : key = PATH_TO_DIR_DEFINE
  · rw [if_pos hdir] at h
    refine .inl ⟨hdir, ?_⟩
    split at h
    · obtain ⟨path, hpath, h⟩ := bind_eq_ok h
      exact .inl ⟨path, hpath, (Except.ok.inj h).symm⟩
    · exact .inr (Except.ok.inj h).symm
  rw [if_neg hdir] at h
  by_cases hbackup : key = PATH_TO_BACKUP_DEFINE
  · rw [if_pos hbackup] at h
    obtain ⟨s', hs', h⟩ := bind_eq_ok h
    obtain ⟨path, hpath, hs'⟩ := bind_eq_ok hs'
    obtain rfl := Except.ok.inj hs'
    exact .inr (.inl ⟨hbackup, path, hpath, (Except.ok.inj h).symm⟩)
  rw [if_neg hbackup] at h
  by_cases hlogger : key = PATH_TO_LOGGER_DEFINE
  · rw [if_pos hlogger] at h
    obtain ⟨s', hs', h⟩ := bind_eq_ok h
    obtain ⟨path, hpath, hs'⟩ := bind_eq_ok hs'
    obtain rfl := Except.ok.inj hs'
    exact .inr (.inr (.inl ⟨hlogger, path, hpath, (Except.ok.inj h).symm⟩))
  · rw [if_neg hlogger] at h
    refine .inr (.inr (.inr ⟨decide_eq_false ?_, (Except.ok.inj h).symm⟩))
    rintro (hkey | hkey | hkey)
    · exact hdir hkey
    · exact hbackup hkey
    · exact hlogger hkey

theorem backupSet_unknown_iff (key value : CString) (s : BackupConfig)
    (r : SetResult BackupConfig) (h : backupSet isDir key value s = .ok r) :
    r = .unknown ↔ backupKnown key = false := by
  obtain ⟨rfl, ⟨path, -, rfl⟩ | rfl⟩ | ⟨rfl, path, -, rfl⟩ | ⟨rfl, path, -, rfl⟩ | ⟨hkey, rfl⟩ :=
    backupSet_cases h
  · exact iff_of_false (fun h => nomatch h) (by decide)
  · exact iff_of_false (fun h => nomatch h) (by decide)
  · exact iff_of_false (fun h => nomatch h) (by decide)
  · exact iff_of_false (fun h => nomatch h) (by decide)
  · exact iff_of_true rfl hkey

/-- A key changes its own path only. -/
theorem backupSet_done_cases (h : backupSet isDir key value s = .ok (.done s')) :
    (key = PATH_TO_DIR_DEFINE ∧ ∃ path, writeAt s.pathToDirBuffer 0 value.bytes = .ok path ∧
        s' = { s with pathToDirBuffer := path }) ∨
      (key = PATH_TO_BACKUP_DEFINE ∧ ∃ path, setPath s.pathToBackup value = .ok path ∧
        s' = { s with pathToBackup := path }) ∨
      (key = PATH_TO_LOGGER_DEFINE ∧ ∃ path, setPath s.pathToLog value = .ok path ∧
        s' = { s with pathToLog := path }) := by
  obtain ⟨hkey, ⟨path, hpath, heq⟩ | heq⟩ | ⟨hkey, path, hpath, heq⟩ | ⟨hkey, path, hpath, heq⟩ |
    ⟨-, heq⟩ := backupSet_cases h
  · exact .inl ⟨hkey, path, hpath, SetResult.done.inj heq⟩
  · cases heq
  · exact .inr (.inl ⟨hkey, path, hpath, SetResult.done.inj heq⟩)
  · exact .inr (.inr ⟨hkey, path, hpath, SetResult.done.inj heq⟩)
  · cases heq

theorem field_setPath {path path' : List UInt8} {n : ℕ} (h : setPath path value = .ok path') :
    field 0 n path' = putCleared n (field 0 n path) value := by
  obtain ⟨cleared, hcleared, hpath⟩ := bind_eq_ok h
  rw [field_writeAt hpath, field_writeAt hcleared]
  rfl

theorem length_setPath {path path' : List UInt8} (h : setPath path value = .ok path') :
    path'.length = path.length := by
  obtain ⟨cleared, hcleared, hpath⟩ := bind_eq_ok h
  exact (length_writeAt hpath).trans (length_writeAt hcleared)

/-- A path that fits is set, and the buffer keeps its size. -/
theorem setPath_of_le {path : List UInt8} {value : CString} (hpos : 0 < path.length)
    (hle : value.strlen ≤ path.length) :
    ∃ path', setPath path value = .ok path' ∧ path'.length = path.length := by
  obtain ⟨cleared, hcleared⟩ : Completes (writeAt path 0 [0]) :=
    completes_writeAt_iff.mpr ((Nat.zero_add _).trans_le hpos)
  obtain ⟨path', hpath'⟩ : Completes (writeAt cleared 0 value.bytes) := by
    rw [completes_writeAt_iff, length_writeAt hcleared, Nat.zero_add]
    exact hle
  have hset : setPath path value = .ok path' := by
    rw [setPath, hcleared]
    exact hpath'
  exact ⟨path', hset, length_setPath hset⟩

/-! ### The paths after a run -/

section Run

variable {kvs : List (CString × CString)} (h : Sets (backupSet isDir) s kvs s')

include h

theorem pathToDir_of_sets :
    field 0 HELPERS_BUF_SIZE s'.pathToDirBuffer =
      (valuesOf PATH_TO_DIR_DEFINE kvs).foldl (put HELPERS_BUF_SIZE)
        (field 0 HELPERS_BUF_SIZE s.pathToDirBuffer) := by
  refine h.part (fun s => field 0 HELPERS_BUF_SIZE s.pathToDirBuffer) (fun _ => True)
    ?_ ?_ fun _ _ => trivial
  · intro value s s' hset
    obtain ⟨-, path, hpath, rfl⟩ | ⟨hkey, -⟩ | ⟨hkey, -⟩ := backupSet_done_cases hset
    · exact field_writeAt hpath
    · exact absurd hkey dir_ne_backup
    · exact absurd hkey dir_ne_logger
  · intro key' value s s' hne _ hset
    obtain ⟨hkey, -⟩ | ⟨-, path, -, rfl⟩ | ⟨-, path, -, rfl⟩ := backupSet_done_cases hset
    · exact absurd hkey hne
    · rfl
    · rfl

theorem pathToBackup_of_sets :
    field 0 HELPERS_AVER_BUFFER_SIZE s'.pathToBackup =
      (valuesOf PATH_TO_BACKUP_DEFINE kvs).foldl (putCleared HELPERS_AVER_BUFFER_SIZE)
        (field 0 HELPERS_AVER_BUFFER_SIZE s.pathToBackup) := by
  refine h.part (fun s => field 0 HELPERS_AVER_BUFFER_SIZE s.pathToBackup) (fun _ => True)
    ?_ ?_ fun _ _ => trivial
  · intro value s s' hset
    obtain ⟨hkey, -⟩ | ⟨-, path, hpath, rfl⟩ | ⟨hkey, -⟩ := backupSet_done_cases hset
    · exact absurd hkey.symm dir_ne_backup
    · exact field_setPath hpath
    · exact absurd hkey backup_ne_logger
  · intro key' value s s' hne _ hset
    obtain ⟨-, path, -, rfl⟩ | ⟨hkey, -⟩ | ⟨-, path, -, rfl⟩ := backupSet_done_cases hset
    · rfl
    · exact absurd hkey hne
    · rfl

theorem pathToLog_of_sets :
    field 0 LOGGER_PATH_TO_LOG_LEN s'.pathToLog =
      (valuesOf PATH_TO_LOGGER_DEFINE kvs).foldl (putCleared LOGGER_PATH_TO_LOG_LEN)
        (field 0 LOGGER_PATH_TO_LOG_LEN s.pathToLog) := by
  refine h.part (fun s => field 0 LOGGER_PATH_TO_LOG_LEN s.pathToLog) (fun _ => True)
    ?_ ?_ fun _ _ => trivial
  · intro value s s' hset
    obtain ⟨hkey, -⟩ | ⟨hkey, -⟩ | ⟨-, path, hpath, rfl⟩ := backupSet_done_cases hset
    · exact absurd hkey.symm dir_ne_logger
    · exact absurd hkey.symm backup_ne_logger
    · exact field_setPath hpath
  · intro key' value s s' hne _ hset
    obtain ⟨-, path, -, rfl⟩ | ⟨-, path, -, rfl⟩ | ⟨hkey, -⟩ := backupSet_done_cases hset
    · rfl
    · rfl
    · exact absurd hkey hne

end Run

/-! ### Which texts take effect -/

/-- Each path that was set shows the last value it was given. -/
structure BackupEffective (kvs : List (CString × CString)) (s : BackupConfig) : Prop where
  pathToDir : ∀ v, (valuesOf PATH_TO_DIR_DEFINE kvs).getLast? = some v →
    Shows (field 0 HELPERS_BUF_SIZE s.pathToDirBuffer) v
  pathToBackup : ∀ v, (valuesOf PATH_TO_BACKUP_DEFINE kvs).getLast? = some v →
    Shows (field 0 HELPERS_AVER_BUFFER_SIZE s.pathToBackup) v
  pathToLog : ∀ v, (valuesOf PATH_TO_LOGGER_DEFINE kvs).getLast? = some v →
    Shows (field 0 LOGGER_PATH_TO_LOG_LEN s.pathToLog) v

/-- No path was longer before; for the two that are cleared, an empty one at the
end will do as well. -/
structure BackupLastLongest (kvs : List (CString × CString)) : Prop where
  pathToDir : ∀ v, (valuesOf PATH_TO_DIR_DEFINE kvs).getLast? = some v →
    ∀ v' ∈ valuesOf PATH_TO_DIR_DEFINE kvs, v'.strlen ≤ v.strlen
  pathToBackup : ∀ v, (valuesOf PATH_TO_BACKUP_DEFINE kvs).getLast? = some v →
    v.strlen = 0 ∨ ∀ v' ∈ valuesOf PATH_TO_BACKUP_DEFINE kvs, v'.strlen ≤ v.strlen
  pathToLog : ∀ v, (valuesOf PATH_TO_LOGGER_DEFINE kvs).getLast? = some v →
    v.strlen = 0 ∨ ∀ v' ∈ valuesOf PATH_TO_LOGGER_DEFINE kvs, v'.strlen ≤ v.strlen

instance (kvs : List (CString × CString)) : Decidable (BackupLastLongest kvs) :=
  decidable_of_iff
    ((∀ v ∈ (valuesOf PATH_TO_DIR_DEFINE kvs).getLast?,
        ∀ v' ∈ valuesOf PATH_TO_DIR_DEFINE kvs, v'.strlen ≤ v.strlen) ∧
      (∀ v ∈ (valuesOf PATH_TO_BACKUP_DEFINE kvs).getLast?,
        v.strlen = 0 ∨ ∀ v' ∈ valuesOf PATH_TO_BACKUP_DEFINE kvs, v'.strlen ≤ v.strlen) ∧
      (∀ v ∈ (valuesOf PATH_TO_LOGGER_DEFINE kvs).getLast?,
        v.strlen = 0 ∨ ∀ v' ∈ valuesOf PATH_TO_LOGGER_DEFINE kvs, v'.strlen ≤ v.strlen))
    ⟨fun h => ⟨h.1, h.2.1, h.2.2⟩, fun h => ⟨h.pathToDir, h.pathToBackup, h.pathToLog⟩⟩

/-- The paths of a run from the start of the service, whose values are no longer
than a line. -/
theorem backupEffective_iff {kvs : List (CString × CString)}
    (h : Sets (backupSet isDir) .initial kvs s)
    (hlen : ∀ kv ∈ kvs, kv.2.strlen ≤ HELPERS_FILE_STROKE_MAX_LEN) :
    BackupEffective kvs s ↔ BackupLastLongest kvs := by
  have hshort : ∀ {key v n}, (valuesOf key kvs).getLast? = some v →
      HELPERS_FILE_STROKE_MAX_LEN < n → v.strlen < n :=
    fun hlast hn => (hlen _ (mem_of_getLast?_valuesOf hlast)).trans_lt hn
  have hdir : ∀ {v}, (valuesOf PATH_TO_DIR_DEFINE kvs).getLast? = some v →
      (Shows (field 0 HELPERS_BUF_SIZE s.pathToDirBuffer) v ↔
        ∀ v' ∈ valuesOf PATH_TO_DIR_DEFINE kvs, v'.strlen ≤ v.strlen) := by
    intro v hlast
    rw [pathToDir_of_sets h, BackupConfig.initial, field_zeros (by rw [Nat.zero_add])]
    exact (shows_foldl_put_iff hlast).trans (and_iff_right (hshort hlast (by decide)))
  have hbackup : ∀ {v}, (valuesOf PATH_TO_BACKUP_DEFINE kvs).getLast? = some v →
      (Shows (field 0 HELPERS_AVER_BUFFER_SIZE s.pathToBackup) v ↔
        v.strlen = 0 ∨ ∀ v' ∈ valuesOf PATH_TO_BACKUP_DEFINE kvs, v'.strlen ≤ v.strlen) := by
    intro v hlast
    rw [pathToBackup_of_sets h, BackupConfig.initial, field_zeros (by rw [Nat.zero_add])]
    exact (shows_foldl_putCleared_iff hlast (by decide)).trans
      (and_iff_right (hshort hlast (by decide)))
  have hlog : ∀ {v}, (valuesOf PATH_TO_LOGGER_DEFINE kvs).getLast? = some v →
      (Shows (field 0 LOGGER_PATH_TO_LOG_LEN s.pathToLog) v ↔
        v.strlen = 0 ∨ ∀ v' ∈ valuesOf PATH_TO_LOGGER_DEFINE kvs, v'.strlen ≤ v.strlen) := by
    intro v hlast
    rw [pathToLog_of_sets h, BackupConfig.initial, field_zeros (by rw [Nat.zero_add])]
    exact (shows_foldl_putCleared_iff hlast (by decide)).trans
      (and_iff_right (hshort hlast (by decide)))
  constructor
  · intro heff
    exact ⟨fun v hv => (hdir hv).mp (heff.pathToDir v hv),
      fun v hv => (hbackup hv).mp (heff.pathToBackup v hv),
      fun v hv => (hlog hv).mp (heff.pathToLog v hv)⟩
  · intro hlongest
    exact ⟨fun v hv => (hdir hv).mpr (hlongest.pathToDir v hv),
      fun v hv => (hbackup hv).mpr (hlongest.pathToBackup v hv),
      fun v hv => (hlog hv).mpr (hlongest.pathToLog v hv)⟩

/-- **The configuration of the backup service takes effect** exactly when no
setting stands behind a line that stops the loop, no value is found behind the
NUL, and no path was longer before its last value. -/
theorem backup_effective_iff {text : CString} {behind : List UInt8} {r : Parsed BackupConfig}
    (h : backupParseAndSerializeConfig isDir (some (text.bytes ++ 0 :: behind)) .initial = .ok r)
    (hsuccess : r.failure = none) :
    r.applied = settings backupKnown text ∧
        BackupEffective (settings backupKnown text) r.state ↔
      NoneSkipped backupKnown (textLines text) ∧ EmptyBehind backupKnown text behind ∧
        BackupLastLongest (settings backupKnown text) := by
  have hseen : Reads HELPERS_FILE_STROKE_MAX_LEN (backupSet isDir) backupKnown
      (linesSeen text behind) .initial r.applied r.state :=
    lineLoop_reads (by decide) backupSet_unknown_iff h hsuccess
  have hall := hseen.eq_settings_iff
  rw [← and_assoc, ← hall]
  refine and_congr_right fun happlied => ?_
  have hreads := hseen.of_seen (hall.mp happlied).2
  rw [← happlied]
  exact backupEffective_iff hreads.sets (hreads.strlen_le (nul_not_mem_textLines text))

end SecuritySystem.Backup
