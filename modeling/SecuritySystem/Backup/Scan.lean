/-
SecuritySystem/Backup/Scan.lean

How the backup service starts on a directory: `backup_check_fs_and_run` and
`backup_fs_iteration_main` of helpers_backup_common.c.

The service walks the tree once.  Files go to the table that the event handler
uses, directories to a table `ht_dirs` of their own.  Then it goes through the
slots of `ht_dirs` in order, watches each directory but the root, and stores
each one in the handler's table, too.  Nobody looks at what an insert returns.

A stored path is read from its block as a C string, so what lies behind the
block counts; `ScanEnv.behind` is that memory.
-/
import SecuritySystem.Lib.FileTree
import SecuritySystem.Backup.Handler

namespace SecuritySystem.Backup

open CMem CString FileTree

/-! ### Constants -/

/-- A function has done its work. -/
def HELPERS_NORMAL_EXIT : ℤ := 0

/-- It has failed. -/
def HELPERS_INVALID_EXIT : ℤ := -1

/-- A file was read. -/
def IN_ACCESS : UInt32 := 0x1

/-- A file was opened. -/
def IN_OPEN : UInt32 := 0x20

/-- A file was closed, whatever it was open for. -/
def IN_CLOSE : UInt32 := IN_CLOSE_WRITE ||| IN_CLOSE_NOWRITE

/-- The events that a watch asks for, as an unsigned long. -/
def condition : UInt64 := (IN_ALL_EVENTS &&& ~~~(IN_CLOSE ||| IN_OPEN ||| IN_ACCESS)).toUInt64

/-! ### Surroundings and states -/

/-- A walk that `fts_open` has opened: whether `fts_children` delivers
something, and what `fts_read` delivers. -/
structure Fts where
  children : Bool
  entries : List FtsEnt

/-- The surroundings of a start: the walk; `backup_keep_running` at its `k`-th
test; the descriptor from `open_inotify_fd`; what the `n`-th call of
`inotify_add_watch` returns; the first value of `count` in `ht_dirs`; the
memory around the blocks of the two tables, by the address of the fresh item
for the repetition test of an insert, and by the address of the stored item
for the reads of `ht_dirs`. -/
structure ScanEnv where
  fts : Option Fts
  running : ℕ → Bool
  inotifyFd : ℤ
  addWatch : ℕ → CString → Int32
  junk : BitVec 32
  besideArg : Addr → Beyond
  besideDirs : Addr → Beyond
  behind : Addr → List UInt8

/-- What a start changes: the argument, how often `ht_dirs` was freed, the
directories passed to `watch_dir`, the counter of watches, and the messages
passed to `logger`; the lists oldest first. -/
structure ScanState where
  arg : ThreadArgument
  freed : ℕ
  watched : List CString
  watchedItems : UInt64
  logged : List CString

/-- `free_and_exit`, but for its result. -/
def ScanState.freeAndExit (s : ScanState) : ScanState := { s with freed := s.freed + 1 }

section Scan

variable (env : ScanEnv)

/-! ### One watch -/

/-- The two `sprintf`s for a watch that was added; the second one writes behind
the first. -/
def watchMessage (dirname : CString) (wd : ℤ) (watchedItems : UInt64) : Except Fault CString := do
  let text ← sprintf HELPERS_AVER_BUFFER_SIZE
    (lit "Watching " ++ dirname ++ lit " WD=" ++ decimal wd)
  let rest ← sprintf (HELPERS_AVER_BUFFER_SIZE - text.strlen)
    (lit "; Watching = " ++ decimal watchedItems.toInt64.toInt ++ lit " items")
  return text ++ rest

/-- `watch_dir` -/
def watchDir (dirname : CString) (mask : UInt64) (s : ScanState) : ScanState × Except Fault ℤ :=
  let wd := (env.addWatch s.watched.length dirname).toInt
  let s := { s with watched := s.watched ++ [dirname] }
  if wd < 0 then
    let refused := quoted (lit "Cannot add watch for") dirname
      (lit " with event mask " ++ numeral 16 mask.toNat)
    (s, (sprintf HELPERS_AVER_BUFFER_SIZE refused).map fun _ => HELPERS_INVALID_EXIT)
  else
    let s := { s with watchedItems := s.watchedItems + 1 }
    match watchMessage dirname wd s.watchedItems with
    | .error e => (s, .error e)
    | .ok message => ({ s with logged := s.logged ++ [message] }, .ok wd)

/-! ### The walk -/

/-- `hash_table_insert_item(arg->hash_table, value)`; the result is dropped. -/
def insertArg (value : CString) (s : ScanState) : ScanState × Option Fault :=
  match hashTableInsertItem (env.besideArg s.arg.hashTable.brk) s.arg.hashTable value with
  | .error e => (s, some e)
  | .ok (_, t) => ({ s with arg.hashTable := t }, none)

/-- `while (backup_keep_running && (NULL != (p = fts_read(ftsp))))` -/
def readEntries : ℕ → List FtsEnt → ScanState → HashTable → ScanState × Except Fault HashTable
  | _, [], s, htDirs => (s, .ok htDirs)
  | k, p :: ps, s, htDirs =>
    if env.running k then
      match p.info with
      | .FTS_F =>
        match insertArg env p.path s with
        | (s, some e) => (s, .error e)
        | (s, none) => readEntries (k + 1) ps s htDirs
      | .FTS_D =>
        match hashTableInsertItem (env.besideDirs htDirs.brk) htDirs p.path with
        | .error e => (s, .error e)
        | .ok (_, htDirs) => readEntries (k + 1) ps s htDirs
      | .FTS_DP | .FTS_DEFAULT => readEntries (k + 1) ps s htDirs
    else (s, .ok htDirs)

/-! ### The slots -/

/-- A directory found in a slot.  When its watch fails, `free_and_exit` frees
`ht_dirs`, but its result is dropped, and the insert behind it reads
`ht_dirs`. -/
def watchAndInsert (value : CString) (s : ScanState) : ScanState × Option Fault :=
  if strncmpEq value s.arg.pathToDir value.strlen then insertArg env value s
  else
    match watchDir env value condition s with
    | (s, .error e) => (s, some e)
    | (s, .ok wd) =>
      if wd = HELPERS_INVALID_EXIT then (s.freeAndExit, some .useAfterFree)
      else insertArg env value s

/-- The body of the loop over the slots. -/
def scanSlot (htDirs : HashTable) (i : ℕ) (s : ScanState) : ScanState × Option Fault :=
  match hashTableSearchItem htDirs (.ofNat i) none with
  | .error e => (s, some e)
  | .ok none => (s, none)
  | .ok (some a) =>
    if env.inotifyFd > 0 then
      match htDirs.deref a with
      | .error e => (s, some e)
      | .ok hi => watchAndInsert env (ofMem (hi.value ++ env.behind a)) s
    else (s, none)

/-- `for (int i = 0; i < ht_dirs->size; i++)`, over the slots that are left. -/
def forSlots (htDirs : HashTable) : List ℕ → ScanState → ScanState × Option Fault
  | [], s => (s, none)
  | i :: is, s =>
    match scanSlot env htDirs i s with
    | (s, some e) => (s, some e)
    | (s, none) => forSlots htDirs is s

/-! ### The start -/

/-- `backup_check_fs_and_run` -/
def backupCheckFsAndRun (arg : ThreadArgument) (watchedItems : UInt64) :
    ScanState × Except Fault ℤ :=
  let s : ScanState := ⟨arg, 0, [], watchedItems, []⟩
  match hashTableCreate HASH_TABLE_MAX env.junk with
  | none => (s, .error .badPointer)
  | some htDirs =>
    match env.fts with
    | none => (s.freeAndExit, .ok HELPERS_INVALID_EXIT)
    | some fts =>
      if fts.children then
        match readEntries env 0 fts.entries s htDirs with
        | (s, .error e) => (s, .error e)
        | (s, .ok htDirs) =>
          match forSlots env htDirs (List.range htDirs.size) s with
          | (s, some e) => (s, .error e)
          | (s, none) => (s.freeAndExit, .ok HELPERS_NORMAL_EXIT)
      else (s.freeAndExit, .ok HELPERS_NORMAL_EXIT)

/-- `backup_fs_iteration_main` -/
def backupFsIterationMain (arg : ThreadArgument) (watchedItems : UInt64) :
    ScanState × Except Fault ℤ :=
  match backupCheckFsAndRun env arg watchedItems with
  | (s, .error e) => (s, .error e)
  | (s, .ok rc) =>
    if s.arg.hashTable.count = 0 then (s, .ok HELPERS_INVALID_EXIT) else (s, .ok rc)

end Scan

end SecuritySystem.Backup
