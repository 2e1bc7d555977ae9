/-
SecuritySystem/Backup/Handler.lean

The event handler of the backup service, `handle_event` of
helpers_backup_common.c.

An event says in which watched directory (`wd`) something happened to which
name.  The handler does not use the descriptor: it walks the chain of the hash
table, opens each stored path as a directory and looks for a regular file
whose name contains the name of the event.  The first hit becomes
`arg->path_to_dir`; without a hit the old value stays; and a path that cannot
be opened ends the handler.

`State` is what events change, `Env` what the rest of the system looks like
during an event.  Every path of the handler returns the new state, and the
fault if it ended in an access that C leaves undefined.
-/
import SecuritySystem.HashTable

namespace SecuritySystem.Backup

open CMem CString

/-! ### Constants -/

/-- A file was written to. -/
def IN_MODIFY : UInt32 := 0x2

/-- A file that was open for writing was closed. -/
def IN_CLOSE_WRITE : UInt32 := 0x8

/-- A file that was open for reading only was closed. -/
def IN_CLOSE_NOWRITE : UInt32 := 0x10

/-- A file was moved away. -/
def IN_MOVED_FROM : UInt32 := 0x40

/-- A file was created. -/
def IN_CREATE : UInt32 := 0x100

/-- A file was deleted. -/
def IN_DELETE : UInt32 := 0x200

/-- All the events that can be asked for. -/
def IN_ALL_EVENTS : UInt32 := 0xfff

/-- The queue of the kernel has lost events. -/
def IN_Q_OVERFLOW : UInt32 := 0x4000

/-- The watch has been removed. -/
def IN_IGNORED : UInt32 := 0x8000

/-- The event is about a directory. -/
def IN_ISDIR : UInt32 := 0x40000000

/-- `.`, at the start of a hidden name -/
def HELPERS_DOT : UInt8 := 46

/-- `/` -/
def HELPERS_SLASH : UInt8 := 47

/-- The size of a message, and of `path_to_backup`. -/
def HELPERS_AVER_BUFFER_SIZE : ℕ := 2048

/-- The size of a full path, and of the buffer of `start`. -/
def HELPERS_BUF_SIZE : ℕ := 1024

/-- How the messages call what is not a directory. -/
def HELPERS_FILE : CString := lit "File"

/-- The program that makes a backup. -/
def COPY_COMMAND : CString := lit "/bin/cp"

/-! ### Events, directories, states -/

/-- `struct inotify_event`; no name when `len` is 0, and none longer than the
kernel's NAME_MAX. -/
structure InotifyEvent where
  wd : ℤ
  mask : UInt32
  cookie : UInt32
  name : Option CString
  nameMax : ∀ f, name = some f → f.strlen ≤ 255

/-- `d_type`, as far as it is looked at. -/
inductive DType
  | reg
  | other
deriving DecidableEq

/-- `struct dirent`, with what `find_file` looks at. -/
structure Dirent where
  name : CString
  type : DType
deriving DecidableEq

/-- The surroundings of one event: `backup_keep_running`, what `opendir` and
`readdir` deliver, the memory behind the blocks of the table's items, and
`path_to_backup`. -/
structure Env where
  running : Bool
  opendir : CString → Option (List Dirent)
  beyond : Addr → List UInt8
  pathToBackup : CString

/-- `thread_argument_t` -/
structure ThreadArgument where
  pathToDir : CString
  hashTable : HashTable

/-- What events change: the argument, the counter of watches (an unsigned
long), the directory streams left open, the messages passed to `logger`, the
calls of `backup_fs_make_backup` with their arguments, and the commands passed
to `system`; the lists oldest first. -/
structure State where
  arg : ThreadArgument
  watchedItems : UInt64
  openStreams : ℕ
  logged : List CString
  backups : List (CString × CString)
  commands : List CString

/-- The strings met from `node` along `previous`, as `opendir` reads them. -/
def chainValues (env : Env) (t : HashTable) : List CString :=
  t.chain.filterMap fun a => (t.items a).map fun hi => CString.ofMem (hi.value ++ env.beyond a)

/-! ### The search -/

section Handler

variable (env : Env)

/-- `backup_helpers_find_file` -/
def backupHelpersFindFile (pattern : CString) (dr : List Dirent) : Bool :=
  env.running && dr.any fun de => de.type = .reg && strstr de.name pattern

/-- How the walk along the chain ends. -/
inductive Search
  | found (dir : CString)
  | unopened (dir : CString)
  | absent

/-- The walk, and how many streams it opens. -/
def searchDirectory (f : CString) : List CString → Search × ℕ
  | [] => (.absent, 0)
  | hi :: rest =>
    match env.opendir hi with
    | none => (.unopened hi, 0)
    | some dr =>
      if backupHelpersFindFile env f dr then (.found hi, 1)
      else ((searchDirectory f rest).1, (searchDirectory f rest).2 + 1)

/-! ### The reaction to an event -/

/-- What a branch of the switch asks for. -/
inductive Reaction
  | backup (message : CString)
  | quiet (message : CString)
  | ignored
  | overflow

/-- A name in quotes, with what stands before and behind. -/
def quoted (before f behind : CString) : CString :=
  before ++ lit " \"" ++ f ++ lit "\"" ++ behind

/-- `switch (event->inot_ev.mask & (IN_ALL_EVENTS | IN_Q_OVERFLOW | IN_IGNORED))` -/
def react (event : InotifyEvent) (f : CString) : Reaction :=
  let sel := event.mask &&& (IN_ALL_EVENTS ||| IN_Q_OVERFLOW ||| IN_IGNORED)
  let fileOrDir := HELPERS_FILE
  if sel = IN_CREATE then
    .backup (quoted (lit "CREATE: " ++ fileOrDir) f (lit ", need to backup"))
  else if sel = IN_DELETE then
    .backup (quoted (lit "DELETE: " ++ fileOrDir) f (lit " need to backup"))
  else if sel = IN_CLOSE_WRITE then
    .quiet (quoted (lit "CLOSE_WRITE: " ++ fileOrDir) f (lit ""))
  else if sel = IN_CLOSE_NOWRITE then
    .quiet (quoted (lit "IN_CLOSE_NOWRITE: " ++ fileOrDir) f (lit ""))
  else if sel = IN_MODIFY then
    .backup (quoted (lit "MODIFY: " ++ fileOrDir) f (lit " need to backup"))
  else if sel = IN_MOVED_FROM then
    .quiet (quoted (lit "MOVED_FROM: " ++ fileOrDir) f
      (lit " Cookie=" ++ decimal event.cookie.toInt32.toInt))
  else if sel = IN_IGNORED then .ignored
  else if sel = IN_Q_OVERFLOW then .overflow
  else
    .backup (quoted (lit "UNKNOWN EVENT \"" ++ numeral 16 event.mask.toNat ++
      lit "\" OCCURRED for file") f (lit ", need to backup"))

/-! ### The backup -/

/-- The two branches on `strlen(strrchr(path, '/'))`: `first`, `second` and a
slash between them unless `first` ends in one. -/
def joined (path first second : CString) (size : ℕ) : Except Fault CString :=
  match path.strrchr HELPERS_SLASH with
  | none => .error .badPointer
  | some tail =>
    sprintf size (if tail.length = 1 then first ++ second else first ++ lit "/" ++ second)

/-- `backup_fs_make_backup`, from the call on. -/
def backupFsMakeBackup (pathToFile filename : CString) (s : State) : State × Option Fault :=
  let s := { s with backups := s.backups ++ [(pathToFile, filename)] }
  match joined env.pathToBackup
      (COPY_COMMAND ++ lit " " ++ pathToFile ++ lit " " ++ env.pathToBackup) (lit "")
      (HELPERS_BUF_SIZE + HELPERS_AVER_BUFFER_SIZE + 1) with
  | .error e => (s, some e)
  | .ok command => ({ s with commands := s.commands ++ [command] }, none)

/-- `if (need_to_backup && !is_dir)` -/
def makeBackup (f : CString) (s : State) : State × Option Fault :=
  match joined s.arg.pathToDir s.arg.pathToDir f HELPERS_BUF_SIZE with
  | .error e => (s, some e)
  | .ok fullPath => backupFsMakeBackup env fullPath f s

/-- `logger(message_buffer)` -/
def State.log (s : State) (message : CString) : State := { s with logged := s.logged ++ [message] }

/-- The handler behind the search. -/
def handleNamed (event : InotifyEvent) (f : CString) (s : State) : State × Option Fault :=
  match react event f with
  | .overflow => (s, none)
  | .ignored =>
    let s := { s with watchedItems := s.watchedItems - 1 }
    if s.watchedItems ≤ 0 then (s, none) else (s.log (lit ""), none)
  | .quiet message =>
    match sprintf HELPERS_AVER_BUFFER_SIZE message with
    | .error e => (s, some e)
    | .ok message => (s.log message, none)
  | .backup message =>
    match sprintf HELPERS_AVER_BUFFER_SIZE message with
    | .error e => (s, some e)
    | .ok message => makeBackup env f (s.log message)

/-- `handle_event` -/
def handleEvent (event : InotifyEvent) (s : State) : State × Option Fault :=
  if event.mask &&& IN_ISDIR ≠ 0 then (s, none)
  else
    match event.name with
    | none => (s, some .badPointer)
    | some f =>
      if f.bytes.head? = some HELPERS_DOT then (s, none)
      else
        let (result, streams) := searchDirectory env f (chainValues env s.arg.hashTable)
        let s := { s with openStreams := s.openStreams + streams }
        match result with
        | .unopened _ => (s, none)
        | .found dir => handleNamed env event f { s with arg.pathToDir := dir }
        | .absent => handleNamed env event f s

end Handler

end SecuritySystem.Backup
