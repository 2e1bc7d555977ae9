/-
SecuritySystem/Backup/ConfiguredBackup.lean

From the configuration to the command of a backup.

The parser reports success also for a text that gives no backup directory, or one
without a slash; `handle_event` and `backup_fs_make_backup` take the length of
what `strrchr` finds in the two directories, which is a null pointer then.  With
slashes in both, both paths are put together as they should be, whether or not
the directories end in one; the command always fits its buffer, since no value of
a text is longer than a line may be (`builds_iff`).
-/
import SecuritySystem.Backup.Command
import SecuritySystem.Backup.Paths

namespace SecuritySystem.Backup

open CMem CMem.CString FileTree

/-! ### What the parser leaves -/

/-- The paths to the backup directory that a run reads: those of the lines in
front of the first that stops the loop. -/
def backupValues (text : CString) : List CString :=
  valuesOf PATH_TO_BACKUP_DEFINE
    (settingsOf backupKnown ((textLines text).takeWhile (¬ Stops backupKnown ·)))

/-- What a buffer of `n` zeros reads as when some strings were set. -/
def leftBy (n : ℕ) (vs : List CString) : CString := .ofMem (vs.foldl (putCleared n) (zeros n))

/-- A slash is left of the strings: the last one is not empty, and where the slash
stands no later string has come. -/
def LeavesSlash (vs : List CString) : Prop :=
  (∀ last ∈ vs.getLast?, 0 < last.strlen) ∧ ∃ p, lastAt vs p = some HELPERS_SLASH

theorem slash_mem_leftBy_iff {n : ℕ} {vs : List CString} (hvs : ∀ v ∈ vs, v.strlen < n) :
    HELPERS_SLASH ∈ (leftBy n vs).bytes ↔ LeavesSlash vs :=
  mem_ofMem_foldl_putCleared_iff (by decide) hvs

theorem strlen_leftBy_le {n k : ℕ} {vs : List CString} (hpos : 0 < k) (hk : k < n)
    (hvs : ∀ v ∈ vs, v.strlen ≤ k) : (leftBy n vs).strlen ≤ k := by
  refine strlen_ofMem_le_of_getElem? ((getElem?_foldl (getElem?_putCleared hpos hk)).mpr ⟨hvs, ?_⟩)
  rw [zeros, List.getElem?_replicate, if_pos hk]

section Parse

variable {isDir : CString → Bool} {s s' : BackupConfig} {kvs : List (CString × CString)}

theorem length_pathToBackup_of_sets (h : Sets (backupSet isDir) s kvs s') :
    s'.pathToBackup.length = s.pathToBackup.length := by
  induction h with
  | nil s => rfl
  | cons hset _ ih =>
    rw [ih]
    obtain ⟨-, path, -, rfl⟩ | ⟨-, path, hpath, rfl⟩ | ⟨-, path, -, rfl⟩ :=
      backupSet_done_cases hset
    · rfl
    · exact length_setPath hpath
    · rfl

/-- **The backup directory after a run**, and its length. -/
theorem pathToBackup_of_parse {text : CString} {behind : List UInt8} {r : Parsed BackupConfig}
    (h : backupParseAndSerializeConfig isDir (some (text.bytes ++ 0 :: behind)) .initial = .ok r)
    (hempty : EmptyBehind backupKnown text behind) (hsuccess : r.failure = none) :
    (HELPERS_SLASH ∈ (backupGetPathToBackup r.state).bytes ↔ LeavesSlash (backupValues text)) ∧
      (backupGetPathToBackup r.state).strlen ≤ HELPERS_FILE_STROKE_MAX_LEN := by
  have hreads : Reads HELPERS_FILE_STROKE_MAX_LEN (backupSet isDir) backupKnown (textLines text)
      .initial r.applied r.state :=
    (lineLoop_reads (by decide) backupSet_unknown_iff h hsuccess).of_seen hempty
  have hlen : r.state.pathToBackup.length = HELPERS_AVER_BUFFER_SIZE :=
    (length_pathToBackup_of_sets hreads.sets).trans (List.length_replicate ..)
  -- no value is longer than a line may be
  have hvalues : ∀ v ∈ backupValues text, v.strlen ≤ HELPERS_FILE_STROKE_MAX_LEN := by
    intro v hv
    rw [backupValues, ← hreads.eq_settingsOf_takeWhile] at hv
    exact hreads.strlen_le (nul_not_mem_textLines text) _ (mem_valuesOf.mp hv)
  have hfield := pathToBackup_of_sets hreads.sets
  rw [BackupConfig.initial, field_zeros (by rw [Nat.zero_add]), field, List.drop_zero,
    List.take_of_length_le hlen.le, hreads.eq_settingsOf_takeWhile] at hfield
  have hleft : backupGetPathToBackup r.state =
      leftBy HELPERS_AVER_BUFFER_SIZE (backupValues text) := congrArg CString.ofMem hfield
  rw [hleft]
  exact ⟨slash_mem_leftBy_iff fun v hv => (hvalues v hv).trans_lt (by decide),
    strlen_leftBy_le (by decide) (by decide) hvalues⟩

end Parse

/-! ### The two paths -/

section Build

variable {env : Env} {event : InotifyEvent} {s : State} {f d : CString}

/-- The command is short enough. -/
theorem strlen_copyCommand_lt {path backup : CString} (hpath : path.strlen < HELPERS_BUF_SIZE)
    (hbackup : backup.strlen ≤ HELPERS_FILE_STROKE_MAX_LEN) :
    (copyCommand path backup).strlen < HELPERS_BUF_SIZE + HELPERS_AVER_BUFFER_SIZE + 1 := by
  have hcp : COPY_COMMAND.strlen = 7 := by decide
  have hblank : (lit " ").strlen = 1 := by decide
  have hprefix := strlen_dirPrefix_le backup
  have hbuf : HELPERS_BUF_SIZE = 1024 := rfl
  have haver : HELPERS_AVER_BUFFER_SIZE = 2048 := rfl
  have hstroke : HELPERS_FILE_STROKE_MAX_LEN = 168 := rfl
  rw [copyCommand, strlen_append, strlen_append, strlen_append, strlen_append, hcp, hblank]
  omega

/-- What `makeBackup` does if the backup directory is short: it returns exactly
if there is a slash in both directories and the source path fits, and then has made
the call and passed the command on. -/
theorem makeBackup_spec (hshort : env.pathToBackup.strlen ≤ HELPERS_FILE_STROKE_MAX_LEN) :
    (Writable s.arg.pathToDir f ∧ HELPERS_SLASH ∈ env.pathToBackup.bytes ∧
        makeBackup env f s =
          ({ s with
              backups := s.backups ++ [(pathIn s.arg.pathToDir f, f)]
              commands := s.commands ++ [copyCommand (pathIn s.arg.pathToDir f) env.pathToBackup] },
            none)) ∨
      ¬ (Writable s.arg.pathToDir f ∧ HELPERS_SLASH ∈ env.pathToBackup.bytes) ∧
        ((makeBackup env f s).2 = some .badPointer ∨
          HELPERS_BUF_SIZE ≤ (pathIn s.arg.pathToDir f).strlen ∧
            (makeBackup env f s).2 = some .overflow) := by
  unfold makeBackup
  by_cases hdir : HELPERS_SLASH ∈ s.arg.pathToDir.bytes
  · rw [joined_of_slash hdir]
    by_cases hlt : (pathIn s.arg.pathToDir f).strlen < HELPERS_BUF_SIZE
    · rw [sprintf_of_lt hlt]
      dsimp only
      -- the source path is there; now the command
      unfold backupFsMakeBackup
      dsimp only
      by_cases hbackup : HELPERS_SLASH ∈ env.pathToBackup.bytes
      · rw [joined_copyCommand hbackup, sprintf_of_lt (strlen_copyCommand_lt hlt hshort)]
        exact .inl ⟨⟨hdir, hlt⟩, hbackup, rfl⟩
      · rw [joined_of_not_slash hbackup]
        exact .inr ⟨fun h => hbackup h.2, .inl rfl⟩
    · rw [sprintf_of_ge (Nat.not_lt.mp hlt)]
      exact .inr ⟨fun h => hlt h.1.2, .inr ⟨Nat.not_lt.mp hlt, rfl⟩⟩
  · rw [joined_of_not_slash hdir]
    exact .inr ⟨fun h => hdir h.1.1, .inl rfl⟩

/-- The event needs a backup of `f` in the directory `d`. -/
structure AsksFor (env : Env) (event : InotifyEvent) (s : State) (f d : CString) : Prop where
  notDir : event.mask &&& IN_ISDIR = 0
  name : event.name = some f
  noDot : f.bytes.head? ≠ some HELPERS_DOT
  kind : NeedsBackup event.mask
  selects : Selects env f (chainValues env s.arg.hashTable) s.arg.pathToDir d

/-- It leads to `makeBackup`. -/
theorem AsksFor.handleEvent_eq (h : AsksFor env event s f d) :
    ∃ s₁, handleEvent env event s = makeBackup env f s₁ ∧ s₁.arg.pathToDir = d ∧
      s₁.backups = s.backups ∧ s₁.commands = s.commands := by
  -- behind the search the event leads to a message that fits, and to the backup
  have hnamed : ∀ s, ∃ m, handleNamed env event f s = makeBackup env f (s.log m) := by
    intro s
    obtain ⟨-, m, hm, hfits⟩ | ⟨hneed, -⟩ := react_cases event (event.nameMax f h.name)
    · refine ⟨m, ?_⟩
      unfold handleNamed
      rw [hm]
      dsimp only
      rw [hfits]
    · exact absurd h.kind hneed
  have hsel := selects_iff.mp h.selects
  unfold handleEvent
  rw [if_neg (not_not.mpr h.notDir), h.name]
  dsimp only
  rw [if_neg h.noDot]
  rcases hsearch : (searchDirectory env f (chainValues env s.arg.hashTable)).1 with d' | d' | -
  · rw [hsearch] at hsel
    obtain rfl := Option.some.inj hsel
    obtain ⟨m, hm⟩ := hnamed _
    exact ⟨_, hm, rfl, rfl, rfl⟩
  · rw [hsearch] at hsel
    cases hsel
  · rw [hsearch] at hsel
    obtain ⟨m, hm⟩ := hnamed _
    exact ⟨_, hm, Option.some.inj hsel, rfl, rfl⟩

/-- The handler returns, and has put both paths together: the file in its
directory, and the backup directory, with one slash behind each. -/
structure Builds (env : Env) (event : InotifyEvent) (s : State) (f d : CString) : Prop where
  returns : (handleEvent env event s).2 = none
  source : (handleEvent env event s).1.backups = s.backups ++ [(pathIn d f, f)]
  destination : (handleEvent env event s).1.commands =
    s.commands ++ [copyCommand (pathIn d f) env.pathToBackup]

theorem builds_iff_of_short (h : AsksFor env event s f d)
    (hshort : env.pathToBackup.strlen ≤ HELPERS_FILE_STROKE_MAX_LEN) :
    Builds env event s f d ↔ Writable d f ∧ HELPERS_SLASH ∈ env.pathToBackup.bytes := by
  obtain ⟨s₁, hevent, rfl, hbackups, hcommands⟩ := h.handleEvent_eq
  obtain ⟨hwritable, hslash, hmade⟩ | ⟨hnot, hfault⟩ :=
    makeBackup_spec (f := f) (s := s₁) hshort
  · refine iff_of_true ⟨?_, ?_, ?_⟩ ⟨hwritable, hslash⟩
    · rw [hevent, hmade]
    · rw [hevent, hmade, hbackups]
    · rw [hevent, hmade, hcommands]
  · refine iff_of_false (fun hbuilds => ?_) hnot
    have hreturns : (makeBackup env f s₁).2 = none := hevent ▸ hbuilds.returns
    rcases hfault with he | ⟨-, he⟩
    · cases he.symm.trans hreturns
    · cases he.symm.trans hreturns

end Build

/-! ### From the text to the command -/

/-- **When the paths are built**, for every text that the parser accepts and every
event that needs a backup: exactly when the directory has a slash and leaves room
for the name, and the values that the text gives for the backup directory leave one. -/
theorem builds_iff {isDir : CString → Bool} {text : CString} {behind : List UInt8}
    {r : Parsed BackupConfig} {env : Env} {event : InotifyEvent} {s : State} {f d : CString}
    (hparse : backupParseAndSerializeConfig isDir (some (text.bytes ++ 0 :: behind)) .initial =
      .ok r) (hempty : EmptyBehind backupKnown text behind) (hsuccess : r.failure = none)
    (hbackup : env.pathToBackup = backupGetPathToBackup r.state) (h : AsksFor env event s f d) :
    Builds env event s f d ↔ Writable d f ∧ LeavesSlash (backupValues text) := by
  obtain ⟨hslash, hshort⟩ := pathToBackup_of_parse hparse hempty hsuccess
  rw [builds_iff_of_short h (hbackup ▸ hshort), hbackup, hslash]

/-! The file "x" is created in `/w`, which has no subdirectory. -/

theorem asksFor_createX (env : Env) : AsksFor env createX watchingW fileX (lit "/w") where
  notDir := by decide
  name := rfl
  noDot := by decide
  kind := by decide
  selects := .inr ⟨rfl, fun _ hx => absurd hx List.not_mem_nil⟩

/-- Both directories are given. -/
def bothGiven : CString := lit "path_to_dir: /w\npath_to_backup: /backup\n\n"

theorem builds_bothGiven : Builds (envX []) createX watchingW fileX (lit "/w") := by
  obtain ⟨r, hparse, hsuccess⟩ : Succeeds (backupParseAndSerializeConfig (fun _ => true)
    (some (bothGiven.bytes ++ 0 :: [])) .initial) := by decide +kernel
  have hbackup : (backupParseAndSerializeConfig (fun _ => true)
      (some (bothGiven.bytes ++ 0 :: [])) .initial).map
        (fun r => backupGetPathToBackup r.state) = .ok (envX []).pathToBackup := by decide +kernel
  rw [hparse] at hbackup
  have hslash : LeavesSlash (backupValues bothGiven) := by
    have hvalues : backupValues bothGiven = [lit "/backup"] := by decide +kernel
    rw [hvalues]
    exact ⟨by decide, 0, by decide⟩
  exact (builds_iff hparse (by decide +kernel) hsuccess (Except.ok.inj hbackup).symm
    (asksFor_createX _)).mpr ⟨by decide, hslash⟩

/-- Only the watched directory is given. -/
def dirGiven : CString := lit "path_to_dir: /w\n\n"

/-- `strrchr` finds no slash in the empty path. -/
theorem not_builds_dirGiven :
    ¬ ∀ (isDir : CString → Bool) (text : CString) (behind : List UInt8) (r : Parsed BackupConfig)
      (env : Env) (event : InotifyEvent) (s : State) (f d : CString),
      backupParseAndSerializeConfig isDir (some (text.bytes ++ 0 :: behind)) .initial = .ok r →
      EmptyBehind backupKnown text behind → r.failure = none →
      env.pathToBackup = backupGetPathToBackup r.state →
      AsksFor env event s f d → Builds env event s f d := by
  intro h
  obtain ⟨r, hparse, hsuccess⟩ : Succeeds (backupParseAndSerializeConfig (fun _ => true)
    (some (dirGiven.bytes ++ 0 :: [])) .initial) := by decide +kernel
  have hempty : EmptyBehind backupKnown dirGiven [] := by decide +kernel
  obtain ⟨hslash, hshort⟩ := pathToBackup_of_parse hparse hempty hsuccess
  have hasks := asksFor_createX { envX [] with pathToBackup := backupGetPathToBackup r.state }
  have hbuilds := h (fun _ => true) dirGiven [] r _ createX watchingW fileX (lit "/w") hparse
    hempty hsuccess rfl hasks
  have hleft := hslash.mp ((builds_iff_of_short hasks hshort).mp hbuilds).2
  have hvalues : backupValues dirGiven = [] := by decide +kernel
  rw [hvalues] at hleft
  obtain ⟨-, p, hp⟩ := hleft
  cases hp

end SecuritySystem.Backup
