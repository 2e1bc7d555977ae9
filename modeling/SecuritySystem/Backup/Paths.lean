/-
SecuritySystem/Backup/Paths.lean

Setting the paths again and again.

`backup_set_path_to_backup` and `logger_set_path_to_log` do the same to their
static buffers: the first byte is cleared, and the string is copied without its
NUL.  After any number of calls the path reads as the last string exactly if that
is empty or no earlier one was longer (`lastRead_iff`); the rest of a longer one
stays behind it.
-/
import SecuritySystem.Backup.Config

namespace SecuritySystem.Backup

open CMem CMem.CString

/-! ### The code -/

/-- `backup_get_path_to_backup`: the array, read as a string. -/
def backupGetPathToBackup (s : BackupConfig) : CString := .ofMem s.pathToBackup

/-- `logger_get_path_to_log` -/
def loggerGetPathToLog (s : BackupConfig) : CString := .ofMem s.pathToLog

/-- A sequence of calls of a setter, from the start of the program. -/
def setAll (set : CString → BackupConfig → Except Fault BackupConfig) (vs : List CString) :
    Except Fault BackupConfig := vs.foldlM (fun s v => set v s) .initial

/-- The calls return, and then the path reads as the given string. -/
def LastRead (set : CString → BackupConfig → Except Fault BackupConfig)
    (get : BackupConfig → CString) (vs : List CString) (last : CString) : Prop :=
  ∃ s, setAll set vs = .ok s ∧ get s = last

/-! ### The buffer -/

section Buffer

variable {path : List UInt8} {value last : CString} {vs : List CString}

theorem setPath_eq (hpos : 0 < path.length) (hle : value.strlen ≤ path.length) :
    setPath path value = .ok (putCleared path.length path value) ∧
      (putCleared path.length path value).length = path.length := by
  obtain ⟨path', hset, hlen⟩ := setPath_of_le hpos hle
  have hfield : ∀ mem : List UInt8, mem.length = path.length → field 0 path.length mem = mem :=
    fun mem hmem => List.take_of_length_le hmem.le
  have hput : field 0 path.length path' = putCleared path.length (field 0 path.length path) value :=
    field_setPath hset
  rw [hfield path' hlen, hfield path rfl] at hput
  exact ⟨hput ▸ hset, hput ▸ hlen⟩

/-- Calls on the buffer alone. -/
theorem foldlM_setPath {n : ℕ} (hn : path.length = n) (hpos : 0 < n)
    (hle : ∀ v ∈ vs, v.strlen ≤ n) :
    vs.foldlM setPath path = .ok (vs.foldl (putCleared n) path) ∧
      (vs.foldl (putCleared n) path).length = n := by
  induction vs generalizing path with
  | nil => exact ⟨rfl, hn⟩
  | cons v vs ih =>
    subst hn
    obtain ⟨hset, hlen⟩ := setPath_eq hpos (hle v List.mem_cons_self)
    rw [List.foldlM_cons, hset]
    exact ih hlen fun w hw => hle w (List.mem_cons_of_mem v hw)

/-- **Calls on a buffer of zeros**: they return, and what the buffer reads as
depends on the lengths. -/
theorem ofMem_foldlM_iff {n : ℕ} (hpos : 0 < n) (hlast : vs.getLast? = some last)
    (hlt : ∀ v ∈ vs, v.strlen < n) :
    ∃ path, vs.foldlM setPath (zeros n) = .ok path ∧
      (CString.ofMem path = last ↔ last.strlen = 0 ∨ ∀ v ∈ vs, v.strlen ≤ last.strlen) := by
  have hlastLt : last.strlen < n := hlt last (List.mem_of_getLast? hlast)
  have hzeros : (zeros n).length = n := List.length_replicate ..
  obtain ⟨hrun, hlen⟩ := foldlM_setPath hzeros hpos fun v hv => (hlt v hv).le
  refine ⟨_, hrun, ?_⟩
  rw [ofMem_eq_iff_shows (hlastLt.trans_eq hlen.symm), shows_foldl_putCleared_iff hlast hpos,
    and_iff_right hlastLt]

end Buffer

/-! ### The two setters -/

section Setters

variable {vs : List CString} {last : CString}

/-- A setter that changes a buffer of the state does so in every sequence. -/
theorem foldlM_of_part {set : CString → BackupConfig → Except Fault BackupConfig}
    {withPath : List UInt8 → BackupConfig}
    (hset : ∀ path v, set v (withPath path) = (setPath path v).map withPath)
    (vs : List CString) (path : List UInt8) :
    vs.foldlM (fun s v => set v s) (withPath path) = (vs.foldlM setPath path).map withPath := by
  induction vs generalizing path with
  | nil => rfl
  | cons v vs ih =>
    rw [List.foldlM_cons, List.foldlM_cons, hset]
    rcases setPath path v with e | path'
    · rfl
    · exact ih path'

theorem lastRead_of_part {set : CString → BackupConfig → Except Fault BackupConfig}
    {get : BackupConfig → CString} (withPath : List UInt8 → BackupConfig) {n : ℕ}
    (hset : ∀ path v, set v (withPath path) = (setPath path v).map withPath)
    (hget : ∀ path, get (withPath path) = .ofMem path)
    (hinitial : withPath (zeros n) = .initial) (hpos : 0 < n) (hlast : vs.getLast? = some last)
    (hlt : ∀ v ∈ vs, v.strlen < n) :
    LastRead set get vs last ↔ last.strlen = 0 ∨ ∀ v ∈ vs, v.strlen ≤ last.strlen := by
  obtain ⟨path, hrun, hread⟩ := ofMem_foldlM_iff hpos hlast hlt
  have hall : setAll set vs = .ok (withPath path) := by
    rw [setAll, ← hinitial, foldlM_of_part hset, hrun]
    rfl
  rw [LastRead, hall, ← hread, ← hget]
  constructor
  · rintro ⟨s, hs, hlast⟩
    exact Except.ok.inj hs ▸ hlast
  · exact fun hlast => ⟨_, rfl, hlast⟩

theorem lastRead_backup_iff (hlast : vs.getLast? = some last)
    (hlt : ∀ v ∈ vs, v.strlen < HELPERS_AVER_BUFFER_SIZE) :
    LastRead backupSetPathToBackup backupGetPathToBackup vs last ↔
      last.strlen = 0 ∨ ∀ v ∈ vs, v.strlen ≤ last.strlen := by
  refine lastRead_of_part (fun path => { BackupConfig.initial with pathToBackup := path })
    (fun path v => ?_) (fun _ => rfl) rfl (by decide) hlast hlt
  show (setPath path v >>= fun path => _) = _
  rcases setPath path v with e | path' <;> rfl

theorem lastRead_log_iff (hlast : vs.getLast? = some last)
    (hlt : ∀ v ∈ vs, v.strlen < LOGGER_PATH_TO_LOG_LEN) :
    LastRead loggerSetPathToLog loggerGetPathToLog vs last ↔
      last.strlen = 0 ∨ ∀ v ∈ vs, v.strlen ≤ last.strlen := by
  refine lastRead_of_part (fun path => { BackupConfig.initial with pathToLog := path })
    (fun path v => ?_) (fun _ => rfl) rfl (by decide) hlast hlt
  show (setPath path v >>= fun path => _) = _
  rcases setPath path v with e | path' <;> rfl

/-- **When the last path is read back**, after any sequence of calls with
strings that fit: exactly when it is empty or no earlier one was longer. -/
theorem lastRead_iff (hlast : vs.getLast? = some last) :
    ((∀ v ∈ vs, v.strlen < HELPERS_AVER_BUFFER_SIZE) →
      (LastRead backupSetPathToBackup backupGetPathToBackup vs last ↔
        last.strlen = 0 ∨ ∀ v ∈ vs, v.strlen ≤ last.strlen)) ∧
      ((∀ v ∈ vs, v.strlen < LOGGER_PATH_TO_LOG_LEN) →
        (LastRead loggerSetPathToLog loggerGetPathToLog vs last ↔
          last.strlen = 0 ∨ ∀ v ∈ vs, v.strlen ≤ last.strlen)) :=
  ⟨lastRead_backup_iff hlast, lastRead_log_iff hlast⟩

theorem lastRead_iff_longer :
    LastRead backupSetPathToBackup backupGetPathToBackup [lit "/c", lit "/ab"] (lit "/ab") ∧
      LastRead loggerSetPathToLog loggerGetPathToLog [lit "/c", lit "/ab"] (lit "/ab") :=
  ⟨((lastRead_iff rfl).1 (by decide)).mpr (by decide),
    ((lastRead_iff rfl).2 (by decide)).mpr (by decide)⟩

/-- Behind "/c" stays the end of "/ab". -/
theorem not_lastRead_shorter :
    ¬ ∀ (vs : List CString) (last : CString), vs.getLast? = some last →
      ((∀ v ∈ vs, v.strlen < HELPERS_AVER_BUFFER_SIZE) →
        LastRead backupSetPathToBackup backupGetPathToBackup vs last) ∧
      ((∀ v ∈ vs, v.strlen < LOGGER_PATH_TO_LOG_LEN) →
        LastRead loggerSetPathToLog loggerGetPathToLog vs last) := by
  intro h
  have hread := (h [lit "/ab", lit "/c"] (lit "/c") rfl).1 (by decide)
  exact absurd ((lastRead_backup_iff rfl (by decide)).mp hread) (by decide)

end Setters

end SecuritySystem.Backup
