/-
SecuritySystem/Backup/Service.lean

The backup service, `start` of backup_service_main.c, with the two threads that
it creates.

`start` creates the hash table that both threads share, parses the
configuration, creates `backup_loop` and `general_loop`, sleeps until SIGINT,
joins one after the other and frees the table.  The main thread is a
`ForkJoin` plan.  Its first worker is the machine of ScanThread.lean and its
second one that of EventThread.lean; the service interleaves the three, and
what one thread leaves in the shared state the other one finds.

A thread that faults, or calls `exit`, ends the process: there is no step
behind that.  Three things are simpler here than in the source.  No lock is
taken anywhere, so another thread could see an insert of the scan, or a
`handle_event`, half done; here each of them is one step.  And a thread that
still runs behind `free_and_exit` goes on as if the table and its argument were
there; such a step is marked in the trace (`ServiceLabel.late`), and what is
proved about tables, commands and faults is about runs without one (`Intact`).
-/
import SecuritySystem.Lib.ForkJoin
import SecuritySystem.Backup.EventThreadCopies
import SecuritySystem.Backup.EventThreadStop
import SecuritySystem.Backup.ScanThread

namespace SecuritySystem.Backup

open CMem CString

/-! ### The start -/

/-- The number of threads. -/
def THREAD_COUNT : ℕ := 2

/-- The seconds that a join may take. -/
def BACKUP_MAX_SEC_WAIT : ℕ := 30

/-- The service ends as it should. -/
def NORMAL_EXIT : ℤ := 0

/-- It ends because of a failure. -/
def INVALID_EXIT : ℤ := -1

/-- The indices of `func`. -/
def backupLoop : ℕ := 0

/-- The thread that waits for events. -/
def generalLoop : ℕ := 1

/-- What `start` does with its threads. -/
def startPlan : ForkJoin.Plan where
  count := THREAD_COUNT
  guarded := false
  code := some NORMAL_EXIT
  patience := BACKUP_MAX_SEC_WAIT
  failure := INVALID_EXIT
  patient := Nat.succ_pos 29

/-- The surroundings: whether `freopen` opens all that it should; whether
SIGINT was ignored when the service was started; what `stat` says of a path;
the text that `parser_read_conf` returns; the first value of `count` in the
table; the result of `pthread_mutex_init`; and the surroundings of the scan. -/
structure StartEnv where
  redirected : Bool
  ignored : Bool
  isDir : CString → Bool
  buffer : Option (List UInt8)
  junk : BitVec 32
  mutexInit : ℤ
  scan : ScanEnv

/-- The three threads, and `path_to_backup`, which none of them changes. -/
structure Service where
  pathToBackup : CString
  main : ForkJoin.State
  scan : ScanThread
  dir : DirThread

namespace Service

/-- The state that the event thread starts with. -/
def handler (arg : ThreadArgument) : State := ⟨arg, 0, 0, [], [], []⟩

/-- The service in front of the first `pthread_create`. -/
def begin (pathToBackup : CString) (arg : ThreadArgument) : Service where
  pathToBackup := pathToBackup
  main := startPlan.start true
  scan := .start arg 0
  dir := .start (fun _ => none) (handler arg)

end Service

/-- `start`, up to the first `pthread_create`; `none` for the returns of
`free_and_exit(INVALID_EXIT)` before. -/
def start (env : StartEnv) : Except Fault (Option Service) :=
  match hashTableCreate HASH_TABLE_MAX env.junk with
  | none => .error .badPointer
  | some hashTable =>
    if env.redirected then do
      let parsed ← backupParseAndSerializeConfig env.isDir env.buffer .initial
      if parsed.failure.isNone ∧ env.mutexInit = 0 then
        return some (.begin (backupGetPathToBackup parsed.state)
          ⟨configuredDir parsed.state, hashTable⟩)
      else return none
    else return none

/-! ### The threads -/

/-- What a step may need from outside, by the thread that makes it. -/
inductive ServiceInput
  | main (input : ForkJoin.Input)
  | signal
  | scan
  /-- `pthread_exit` of `backup_loop` -/
  | scanEnds
  | dir (input : DirInput)
  /-- the `return` of `general_loop` -/
  | dirEnds

/-- What a step shows, by the thread that makes it. -/
inductive ServiceLabel
  | main (l : ForkJoin.Label)
  | scan (found : ScanInput)
  | dir (l : DirLabel)

namespace ServiceInput

/-- The main thread makes the step. -/
def ofMain : ServiceInput → Bool
  | .main _ => true
  | _ => false

/-- The scanning thread makes it. -/
def ofScan : ServiceInput → Bool
  | .scan => true
  | _ => false

/-- The thread of the events makes it. -/
def ofDir : ServiceInput → Bool
  | .dir _ => true
  | _ => false

end ServiceInput

namespace Service

/-- The process has ended, or its behaviour is undefined. -/
def dead (s : Service) : Bool :=
  match s.dir.pc, s.scan.pc with
  | .exited, _ | .fault _, _ | _, .fault _ => true
  | _, _ => false

/-- A step of `general_loop`. -/
def dirStep (s : Service) (input : DirInput) : Option (Service × List ServiceLabel) := do
  let m ← startPlan.step s.main (.use generalLoop)
  let d ← s.dir.step s.pathToBackup input
  return ({ s with dir := d.1 }, m.2.map .main ++ d.2.map .dir)

/-- A step of `backup_loop`, which finds what is shared, and what the event
thread is left with. -/
def scanStep (env : StartEnv) (s : Service) : Option (Service × List ServiceLabel) := do
  let m ← startPlan.step s.main (.use backupLoop)
  let found : ScanInput := ⟨s.main.flag, s.dir.handler.watchedItems⟩
  let t ← s.scan.step env.scan found
  let d ← s.dir.step s.pathToBackup
    (.scanned t.state.arg.hashTable t.state.watchedItems t.state.logged)
  return ({ s with scan := t, dir := d.1 }, m.2.map .main ++ .scan found :: d.2.map .dir)

/-- SIGINT. -/
def signalStep (env : StartEnv) (s : Service) : Option (Service × List ServiceLabel) :=
  if env.ignored then some (s, [])
  else do
    let m ← startPlan.step s.main .signal
    let d ← s.dir.step s.pathToBackup .signal
    return ({ s with main := m.1, dir := d.1 }, m.2.map .main ++ d.2.map .dir)

/-- A step of the main thread, or one that ends a worker. -/
def mainStep (s : Service) (input : ForkJoin.Input) : Option (Service × List ServiceLabel) :=
  (startPlan.step s.main input).map fun m => ({ s with main := m.1 }, m.2.map .main)

/-- One step of any thread, or the signal; there is none behind a fault. -/
def step (env : StartEnv) (s : Service) (input : ServiceInput) :
    Option (Service × List ServiceLabel) :=
  if s.dead then none
  else
    match input with
    | .main input => if input.own then s.mainStep input else none
    | .signal => s.signalStep env
    | .scan => s.scanStep env
    | .scanEnds =>
      match s.scan.pc with
      | .returned _ => s.mainStep (.finish backupLoop)
      | _ => none
    | .dir input => if input.own then s.dirStep input else none
    | .dirEnds =>
      match s.dir.pc with
      | .returned => s.mainStep (.finish generalLoop)
      | _ => none

/-- A run of the service. -/
def run (env : StartEnv) (s : Service) (inputs : List ServiceInput) :
    Option (Service × List ServiceLabel) :=
  Machine.run (step env) s inputs

end Service

/-! ### What a run did -/

/-- A thread runs behind the free, where what it shares is gone. -/
def ServiceLabel.late : ServiceLabel → Bool
  | .main (.used _ late) => late
  | _ => false

/-- The trace of the main thread. -/
def mainTrace : List ServiceLabel → List ForkJoin.Label :=
  List.filterMap fun
    | .main l => some l
    | _ => none

/-- What the steps of the scan have found. -/
def scanInputs : List ServiceLabel → List ScanInput :=
  List.filterMap fun
    | .scan found => some found
    | _ => none

/-- The trace of the event thread. -/
def dirTrace : List ServiceLabel → List DirLabel :=
  List.filterMap fun
    | .dir l => some l
    | _ => none

end SecuritySystem.Backup
