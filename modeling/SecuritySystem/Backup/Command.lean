/-
SecuritySystem/Backup/Command.lean

The command line of a backup, as the shell reads it.

`backup_fs_make_backup` writes the path of the file and the backup directory
into a command line as they are, and `system` passes the line to a shell.  The
shell reads the path as one word, and as the path, exactly when it is a plain
word (`copiesOne_iff`); nothing in the code sees to that.
-/
import SecuritySystem.Lib.Shell
import SecuritySystem.Backup.HandlerSafety

namespace SecuritySystem.Backup

open CMem CString FileTree

variable {env : Env} {s : State} {f path command : CString}

/-! ### The command line -/

/-- The command line that `backup_fs_make_backup` builds. -/
def copyCommand (path backup : CString) : CString :=
  COPY_COMMAND ++ lit " " ++ path ++ lit " " ++ dirPrefix backup

theorem joined_copyCommand {backup : CString} {size : ℕ} (h : HELPERS_SLASH ∈ backup.bytes) :
    joined backup (COPY_COMMAND ++ lit " " ++ path ++ lit " " ++ backup) (lit "") size =
      sprintf size (copyCommand path backup) := by
  have hempty : (lit "").bytes = [] := rfl
  unfold joined
  rcases htail : backup.strrchr HELPERS_SLASH with - | tail
  · exact absurd h (strrchr_eq_none.mp htail)
  · refine congrArg (sprintf size) (CString.ext ?_)
    unfold copyCommand
    by_cases hlast : backup.bytes.getLast? = some HELPERS_SLASH
    · have hdir : dirPrefix backup = backup := if_pos hlast
      rw [if_pos ((length_strrchr_eq_one htail).mpr hlast), hdir, bytes_append _ (lit ""), hempty,
        List.append_nil]
    · have hdir : dirPrefix backup = backup ++ lit "/" := if_neg hlast
      rw [if_neg fun h1 => hlast ((length_strrchr_eq_one htail).mp h1), hdir,
        bytes_append _ (lit ""), hempty, List.append_nil]
      simp only [bytes_append, List.append_assoc]

/-- What is passed to `system`, if anything is. -/
theorem backupFsMakeBackup_commands
    (h : (backupFsMakeBackup env path f s).1.commands = s.commands ++ [command]) :
    command = copyCommand path env.pathToBackup := by
  unfold backupFsMakeBackup at h
  dsimp only at h
  by_cases hs : HELPERS_SLASH ∈ env.pathToBackup.bytes
  · rw [joined_copyCommand hs] at h
    by_cases hlt : (copyCommand path env.pathToBackup).strlen <
        HELPERS_BUF_SIZE + HELPERS_AVER_BUFFER_SIZE + 1
    · rw [sprintf_of_lt hlt] at h
      have hcons := List.append_cancel_left h
      exact (List.cons.inj hcons).1.symm
    · rw [sprintf_of_ge (Nat.not_lt.mp hlt)] at h
      exact absurd h (by simp)
  · rw [joined_of_not_slash hs] at h
    exact absurd h (by simp)

theorem makeBackup_commands (h : (makeBackup env f s).1.commands = s.commands ++ [command]) :
    command = copyCommand (pathIn s.arg.pathToDir f) env.pathToBackup := by
  unfold makeBackup at h
  by_cases hs : HELPERS_SLASH ∈ s.arg.pathToDir.bytes
  · rw [joined_of_slash hs] at h
    by_cases hlt : (pathIn s.arg.pathToDir f).strlen < HELPERS_BUF_SIZE
    · rw [sprintf_of_lt hlt] at h
      exact backupFsMakeBackup_commands h
    · rw [sprintf_of_ge (Nat.not_lt.mp hlt)] at h
      exact absurd h (by simp)
  · rw [joined_of_not_slash hs] at h
    exact absurd h (by simp)

/-! ### What the shell reads -/

/-- The shell reads one simple command of three words: `/bin/cp`, the path,
and the backup directory. -/
def CopiesOne (command path backup : CString) : Prop :=
  Shell.lex command.bytes = some [.word COPY_COMMAND.bytes, .word path.bytes,
    .word (dirPrefix backup).bytes]

instance (command path backup : CString) : Decidable (CopiesOne command path backup) :=
  inferInstanceAs (Decidable (_ = _))

theorem plain_dirPrefix {d : CString} (h : Shell.Plain d.bytes) :
    Shell.Plain (dirPrefix d).bytes := by
  unfold dirPrefix
  split
  · exact h
  · exact h.append (by decide)

/-- **Exactly when the command copies the file**: its path is a plain word, for
every command that is passed to `system` with a plain backup path. -/
theorem copiesOne_iff (hbackup : Shell.Plain env.pathToBackup.bytes)
    (h : (makeBackup env f s).1.commands = s.commands ++ [command]) :
    CopiesOne command (pathIn s.arg.pathToDir f) env.pathToBackup ↔
      Shell.Plain (pathIn s.arg.pathToDir f).bytes := by
  rw [makeBackup_commands h]
  have hcp : Shell.Plain COPY_COMMAND.bytes := by decide
  have hdir := plain_dirPrefix hbackup
  have hblank : (lit " ").bytes = [Shell.space] := by decide
  have hline : (copyCommand (pathIn s.arg.pathToDir f) env.pathToBackup).bytes =
      Shell.unwords [COPY_COMMAND.bytes, (pathIn s.arg.pathToDir f).bytes,
        (dirPrefix env.pathToBackup).bytes] := by
    simp only [copyCommand, bytes_append, hblank, List.append_assoc, List.cons_append,
      List.nil_append, Shell.unwords_cons_cons, Shell.unwords_singleton]
  rw [CopiesOne, hline]
  constructor
  · intro hlex
    exact Shell.plain_of_lex_unwords (List.forall_mem_singleton.mpr hcp) (List.cons_ne_nil _ [])
      hlex
  · intro hpath
    refine Shell.lex_unwords fun w hw => ?_
    simp only [List.mem_cons, List.not_mem_nil, or_false] at hw
    rcases hw with rfl | rfl | rfl
    · exact hcp
    · exact hpath
    · exact hdir

/-! A service that watches `/w`, with the backup directory `/backup`. -/

/-- One watch, of the root, and no item in the table yet. -/
def watchingW : State :=
  ⟨⟨lit "/w", ⟨fun _ => none, none, 10000, 0, fun _ => none, 0⟩⟩, 1, 0, [], [], []⟩

theorem copiesOne_iff_plain :
    CopiesOne (lit "/bin/cp /w/x /backup/") (lit "/w/x") (lit "/backup") ↔
      Shell.Plain (lit "/w/x").bytes := by
  have hcommands : (makeBackup (envX []) (lit "x") watchingW).1.commands =
      watchingW.commands ++ [lit "/bin/cp /w/x /backup/"] := rfl
  exact copiesOne_iff (by decide) hcommands

/-- The file "a b" makes two words. -/
theorem not_copiesOne_blank :
    ¬ ∀ (env : Env) (s : State) (f command : CString), HELPERS_SLASH ∉ f.bytes → f.bytes ≠ [] →
      f.bytes.head? ≠ some HELPERS_DOT → Shell.Plain env.pathToBackup.bytes →
      (makeBackup env f s).1.commands = s.commands ++ [command] →
      CopiesOne command (pathIn s.arg.pathToDir f) env.pathToBackup := by
  intro hall
  have hcopies := hall (envX []) watchingW (lit "a b") (lit "/bin/cp /w/a b /backup/") (by decide)
    (by decide) (by decide) (by decide) rfl
  exact absurd hcopies (by decide)

end SecuritySystem.Backup
