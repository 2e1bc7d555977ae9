/-
SecuritySystem/Backup/EventThread.lean

The thread that handles the events, `pthread_on_dir_run` of
helpers_backup_common.c, with everything it calls.

The thread opens inotify, creates the queue, watches the root, runs the event
loop, closes inotify and destroys the queue.  Inside the loop `handle_event`
is no longer an input: the bytes of the queue entry are read back as an event,
and the handler works on the state that the thread shares with the other one.

So the machine of the loop is a part of this machine.  What the scanning
thread does in the meantime comes from outside (`DirInput.scanned`): it may
change the table, count watches and write to the log between two steps of this
thread, though not within one.  That the call of `handle_event` is one step is
a simplification: the source takes no lock, so an insert of the scanning thread
could fall into the middle of it.
-/
import SecuritySystem.Lib.Machine
import SecuritySystem.Backup.HandlerRun
import SecuritySystem.Backup.ReadEvents

namespace SecuritySystem.Backup

open CMem CString

/-! ### Events of the kernel -/

/-- A record as the kernel fills it in: behind a name stand one to 16 NULs. -/
structure KernelEvent where
  wd : UInt32
  mask : UInt32
  cookie : UInt32
  name : Option CString
  nameMax : ∀ f, name = some f → f.strlen ≤ 255
  padding : Fin 16

namespace KernelEvent

/-- The `name` field; without a name `len` is 0. -/
def nameBytes (e : KernelEvent) : List UInt8 :=
  match e.name with
  | none => []
  | some f => f.bytes ++ List.replicate (e.padding + 1) 0

theorem length_nameBytes_le (e : KernelEvent) : e.nameBytes.length ≤ 271 := by
  unfold nameBytes
  rcases h : e.name with - | f
  · exact Nat.zero_le _
  · have hf := e.nameMax f h
    have hpad := e.padding.isLt
    unfold CString.strlen at hf
    rw [List.length_append, List.length_replicate]
    omega

/-- What `read` delivers. -/
def record (e : KernelEvent) : InotifyRecord where
  wd := e.wd
  mask := e.mask
  cookie := e.cookie
  name := e.nameBytes
  len := e.length_nameBytes_le.trans_lt (by decide)

/-- What the handler sees. -/
def event (e : KernelEvent) : InotifyEvent where
  wd := e.wd.toInt32.toInt
  mask := e.mask
  cookie := e.cookie
  name := e.name
  nameMax := e.nameMax

end KernelEvent

theorem nameMax_none (f : CString) (hf : none = some f) : f.strlen ≤ 255 := by cases hf

theorem nameMax_some {g : CString} (h : g.strlen ≤ 255) (f : CString) (hf : some g = some f) :
    f.strlen ≤ 255 := Option.some.inj hf ▸ h

/-- The event of a queue entry: the name is read as a C string.  A longer name
than the kernel writes is no event. -/
def EventFields.event (e : EventFields) : Option InotifyEvent :=
  if e.len = 0 then some ⟨e.wd.toInt32.toInt, e.mask, e.cookie, none, nameMax_none⟩
  else if h : (CString.ofMem e.name).strlen ≤ 255 then
    some ⟨e.wd.toInt32.toInt, e.mask, e.cookie, some (CString.ofMem e.name), nameMax_some h⟩
  else none

/-! ### The thread -/

/-- Where the thread stands. -/
inductive DirPc
  /-- the call of `open_inotify_fd` -/
  | opening
  /-- `queue = queue_create()` -/
  | creating
  /-- `watch_dir(inotify_fd, arg->path_to_dir, condition)` -/
  | watching
  /-- inside `process_inotify_events` -/
  | processing
  /-- the call of `close_inotify_fd` -/
  | closing
  /-- `while (NULL != q->head)` of `queue_destroy`, or its first line when
  there is no queue -/
  | destroying
  /-- `queue_create` has found no memory and ended the process -/
  | exited
  | returned
  | fault (e : Fault)

/-- The state of the thread: `created` tells whether `queue` points to a
queue. -/
structure DirThread where
  pc : DirPc
  created : Bool
  loop : LoopState
  handler : State

/-- What a step may need from outside. -/
inductive DirInput
  | signal
  | go
  /-- `open_inotify_fd` returns -/
  | opened (fd : ℤ)
  /-- whether `malloc` finds memory for the queue -/
  | created (memory : Bool)
  /-- `inotify_add_watch` returns -/
  | watched (wd : Int32)
  /-- a step of the event loop -/
  | loop (input : Input)
  /-- `read` delivers -/
  | read (events : List KernelEvent)
  /-- the surroundings that `handle_event` finds -/
  | handle (opendir : CString → Option (List Dirent)) (beyond : Addr → List UInt8)
  /-- `close` returns -/
  | closed (r : ℤ)
  /-- what the other thread has done -/
  | scanned (hashTable : HashTable) (watchedItems : UInt64) (messages : List CString)

/-- The thread itself makes the step. -/
def DirInput.own : DirInput → Bool
  | .signal | .scanned _ _ _ => false
  | _ => true

/-- What a step does. -/
inductive DirLabel
  | loop (l : Label)
  | delivered (events : List KernelEvent)
  | event (env : Env) (event : InotifyEvent)
  | scanned (hashTable : HashTable) (watchedItems : UInt64) (messages : List CString)
  | watched (wd : Int32)
  | queueCreated
  | closed (r : ℤ)
  | destroyed (a : Addr)
  | queueFreed

/-- The message of `backup_signal_handler`. -/
def sigintMessage : CString :=
  lit "SIGINT signal handled, the \"backup\" program is terminated!"

/-- What the other thread does to the shared state. -/
def State.scanned (s : State) (hashTable : HashTable) (watchedItems : UInt64)
    (messages : List CString) : State :=
  { s with
    arg.hashTable := hashTable
    watchedItems := watchedItems
    logged := s.logged ++ messages }

/-- `watch_dir` reads of its surroundings what `inotify_add_watch` returns. -/
def watchEnv (wd : Int32) : ScanEnv where
  fts := none
  running := fun _ => true
  inotifyFd := 0
  addWatch := fun _ _ => wd
  junk := 0
  besideArg := fun _ => ⟨[], []⟩
  besideDirs := fun _ => ⟨[], []⟩
  behind := fun _ => []

/-- The call of `watch_dir` for the root. -/
def watchRoot (wd : Int32) (s : State) : State × Except Fault ℤ :=
  let (t, r) := watchDir (watchEnv wd) s.arg.pathToDir condition
    ⟨s.arg, 0, [], s.watchedItems, s.logged⟩
  ({ s with
      watchedItems := t.watchedItems
      logged := t.logged }, r)

namespace DirThread

/-- A call of `pthread_on_dir_run`, the first one in the process: the static
pointer to the queue is null.  A signal that came before is one that comes
first. -/
def start (entries : Entries (List UInt8)) (handler : State) : DirThread where
  pc := .opening
  created := false
  loop := .start handler.watchedItems entries
  handler := handler

/-- The event of the entry that the event loop is about to handle. -/
def heldEvent (s : LoopState) (a : Addr) : Except Fault (Option InotifyEvent) := do
  let e ← s.queue.deref a
  let fields ← readFields e.inotEv
  return fields.event

/-- The call of `handle_event`. -/
def handleStep (pathToBackup : CString) (s : DirThread) (opendir : CString → Option (List Dirent))
    (beyond : Addr → List UInt8) (a : Addr) : Option (DirThread × List DirLabel) :=
  match heldEvent s.loop a with
  | .error e => some ({ s with pc := .fault e }, [])
  | .ok none => none
  | .ok (some event) =>
    let env : Env := ⟨s.loop.keepRunning, opendir, beyond, pathToBackup⟩
    match handleEvent env event s.handler with
    | (h, some e) => some ({ s with pc := .fault e, handler := h }, [.event env event])
    | (h, none) => (s.loop.step (.handled h.watchedItems)).map fun r =>
        ({ s with loop := r.1, handler := h }, .event env event :: r.2.map .loop)

/-- The steps of the event loop that need nothing but an input: all but the
signal, a `read` that delivers, and the call of `handle_event`. -/
def plain : Input → Bool
  | .go | .poll _ _ | .read none | .malloc _ => true
  | .signal | .read (some _) | .handled _ => false

/-- One step of `queue_destroy`. -/
def destroyStep (s : DirThread) : DirThread × List DirLabel :=
  if s.created then
    match s.loop.queue.head with
    | none => ({ s with created := false, pc := .returned }, [.queueFreed])
    | some next =>
      match destroyHead s.loop.queue next with
      | .error e => ({ s with pc := .fault e }, [])
      | .ok q => ({ s with loop.queue := q }, [.destroyed next])
  else ({ s with pc := .returned }, [])

/-- The step that stands at the program counter, with what it does. -/
def step (pathToBackup : CString) (s : DirThread) (input : DirInput) :
    Option (DirThread × List DirLabel) :=
  match input, s.pc with
  | .signal, _ =>
    some ({ s with
        loop.keepRunning := false
        handler := s.handler.log sigintMessage }, [.loop .signal])
  | .scanned t w messages, _ =>
    some ({ s with
        loop.watchedItems := w
        handler := s.handler.scanned t w messages }, [.scanned t w messages])
  | .opened fd, .opening =>
    some ({ s with pc := if fd > HELPERS_NORMAL_EXIT then .creating else .destroying }, [])
  | .created memory, .creating =>
    match queueCreate memory s.loop.queue.entries with
    | none => some ({ s with pc := .exited }, [])
    | some q => some ({ s with pc := .watching, created := true, loop.queue := q }, [.queueCreated])
  | .watched wd, .watching =>
    let (h, r) := watchRoot wd s.handler
    let s := { s with handler := h, loop.watchedItems := h.watchedItems }
    match r with
    | .error e => some ({ s with pc := .fault e }, [.watched wd])
    | .ok wd' => some ({ s with pc := if wd' > 0 then .processing else .closing }, [.watched wd])
  | .loop input, .processing =>
    if plain input then
      (s.loop.step input).map fun r => ({ s with loop := r.1 }, r.2.map .loop)
    else none
  | .read events, .processing =>
    (s.loop.step (.read (some (events.map KernelEvent.record)))).map fun r =>
      ({ s with loop := r.1 }, .delivered events :: r.2.map .loop)
  | .handle opendir beyond, .processing =>
    match s.loop.pc with
    | .handle (some a) => s.handleStep pathToBackup opendir beyond a
    | _ => none
  | .go, .processing =>
    match s.loop.pc with
    | .returned =>
      some ({ s with pc := if s.loop.rc = HELPERS_INVALID_EXIT then .destroying else .closing }, [])
    | _ => none
  | .closed r, .closing =>
    if r < 0 then some ({ s with pc := .destroying }, [.closed r])
    else some ({ s with
        pc := .destroying
        loop.watchedItems := 0
        handler.watchedItems := 0 }, [.closed r])
  | .go, .destroying => some s.destroyStep
  | _, _ => none

/-- A run of the thread. -/
def run (pathToBackup : CString) (s : DirThread) (inputs : List DirInput) :
    Option (DirThread × List DirLabel) :=
  Machine.run (step pathToBackup) s inputs

end DirThread

/-! ### What a run did -/

/-- The steps of the event loop. -/
def loopTrace : List DirLabel → List Label :=
  List.filterMap fun
    | .loop l => some l
    | _ => none

/-- The batches that `read` delivered. -/
def deliveries : List DirLabel → List (List KernelEvent) :=
  List.filterMap fun
    | .delivered events => some events
    | _ => none

/-- The events passed to `handle_event`. -/
def handledEvents : List DirLabel → List InotifyEvent :=
  List.filterMap fun
    | .event _ event => some event
    | _ => none

/-- What a step does to the shared state. -/
def DirLabel.effect (s : State) : DirLabel → State
  | .loop .signal => s.log sigintMessage
  | .event env e => (handleEvent env e s).1
  | .scanned t w messages => s.scanned t w messages
  | .watched wd => (watchRoot wd s).1
  | .closed r => if r < 0 then s else { s with watchedItems := 0 }
  | _ => s

/-- All that a run has done to the shared state, one after the other. -/
def replay (s : State) (trace : List DirLabel) : State := trace.foldl DirLabel.effect s

/-- What the thread gets from `malloc`. -/
inductive Block
  | queue
  | entry (a : Addr)
deriving DecidableEq

/-- What it has got, in order. -/
def allocated : List DirLabel → List Block :=
  List.filterMap fun
    | .queueCreated => some .queue
    | .loop (.enqueue a _) => some (.entry a)
    | _ => none

/-- What it gives back to `free`. -/
def released : List DirLabel → List Block :=
  List.filterMap fun
    | .queueFreed => some .queue
    | .loop (.free a) => some (.entry a)
    | .destroyed a => some (.entry a)
    | _ => none

/-- The calls of `close`. -/
def closes : List DirLabel → List ℤ :=
  List.filterMap fun
    | .closed r => some r
    | _ => none

end SecuritySystem.Backup
