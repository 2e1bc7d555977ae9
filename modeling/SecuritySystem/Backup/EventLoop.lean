/-
SecuritySystem/Backup/EventLoop.lean

The event loop of the backup service: `process_inotify_events` of
helpers_backup_common.c with `event_check`, `read_events` and
`process_handle_events`.

SIGINT may clear `backup_keep_running` between any two steps, and the loops
test the flag at different places.  So the code is a machine with a program
counter: `Pc` has one value for each place where a test or a call stands, and
`step` makes the step that stands there.  What comes from outside (the
signal, the results of `poll`, `read` and `malloc`, the value that
`handle_event` leaves in `watched_items`) is the `Input` of the step, so a run
is a list of inputs.

A `read` fills the buffer with whole records.  They are parsed back from the
bytes, as in the code.

The machine reports what it does with events as `Label`s.
-/
import SecuritySystem.EventQueue
import SecuritySystem.Lib.Words
import SecuritySystem.Backup.Scan

namespace SecuritySystem.Backup

open CMem

/-! ### Records -/

/-- `read` is asked for at most this many bytes. -/
def HELPERS_MAX_BUFFER_SIZE : ℕ := 16384

/-- The header of a `struct inotify_event`, up to the name. -/
def offsetofName : ℕ := 16

/-- A record as the kernel writes it; `len` counts the bytes of the name, with
its padding. -/
structure InotifyRecord where
  wd : UInt32
  mask : UInt32
  cookie : UInt32
  name : List UInt8
  len : name.length < 2 ^ 32

/-- The bytes of a record. -/
def InotifyRecord.encode (r : InotifyRecord) : List UInt8 :=
  leBytes 4 r.wd.toNat ++ leBytes 4 r.mask.toNat ++ leBytes 4 r.cookie.toNat ++
    leBytes 4 r.name.length ++ r.name

/-- The bytes of a batch of records. -/
def encodeAll (rs : List InotifyRecord) : List UInt8 := rs.flatMap InotifyRecord.encode

/-! ### The machine -/

/-- Where the program stands. -/
inductive Pc
  /-- `while (backup_keep_running && watched_items > 0)` -/
  | whileWatched
  /-- `while (backup_keep_running)` of `event_check` -/
  | eventCheck
  /-- the call of `poll` -/
  | poll
  /-- `if (event_check(fd) > 0)`, with the value returned -/
  | checked (ret : ℤ)
  /-- the call of `read` -/
  | read
  /-- `while (buffer_i < r && backup_keep_running)` -/
  | parse (buffer : List UInt8) (i : ℕ) (count : ℤ)
  /-- the body of that loop -/
  | parseEvent (buffer : List UInt8) (i : ℕ) (count : ℤ)
  /-- `while (!queue_empty(q))` -/
  | drain
  /-- `event = queue_dequeue(q)` -/
  | dequeue
  /-- `handle_event(event, arg)` -/
  | handle (event : Option Addr)
  /-- `free(event)` -/
  | free (event : Addr)
  /-- `return rc` -/
  | returned
  | fault (e : Fault)

/-- The state of the loop.  An entry of the queue holds the bytes of its
record. -/
structure LoopState where
  keepRunning : Bool
  watchedItems : UInt64
  queue : Queue (List UInt8)
  rc : ℤ
  pc : Pc

/-- What a step may need from outside. -/
inductive Input
  /-- SIGINT, handled by `backup_signal_handler` -/
  | signal
  | go
  /-- `poll` returns, and `fds.revents & POLLIN` -/
  | poll (ret : ℤ) (pollin : Bool)
  /-- `read` fails, or delivers whole records -/
  | read (records : Option (List InotifyRecord))
  /-- `malloc` returns -/
  | malloc (a : Addr)
  /-- `handle_event` returns, with this value in `watched_items` -/
  | handled (watchedItems : UInt64)

/-- What a step does with events. -/
inductive Label
  | signal
  | read (records : List InotifyRecord)
  | enqueue (event : Addr) (bytes : List UInt8)
  | handle (event : Addr) (bytes : List UInt8)
  | free (event : Addr)

namespace LoopState

/-- A call of `process_inotify_events` with a new queue. -/
def start (watchedItems : UInt64) (entries : Entries (List UInt8)) : LoopState :=
  ⟨true, watchedItems, ⟨⟨none, none⟩, entries⟩, HELPERS_NORMAL_EXIT, .whileWatched⟩

/-- The same state at another place of the code. -/
def goto (s : LoopState) (pc : Pc) : LoopState := { s with pc := pc }

/-- The result of `event_check`, after `poll` has returned; without an event
in time it goes back to its test. -/
def polled (ret : ℤ) (pollin : Bool) : Pc :=
  if ret = HELPERS_INVALID_EXIT then .checked HELPERS_INVALID_EXIT
  else if ret = HELPERS_NORMAL_EXIT then .eventCheck
  else if pollin then .checked ret
  else .checked HELPERS_INVALID_EXIT

/-- The size of the record at the offset: `offsetof(struct inotify_event, name)
+ pevent->len`. -/
def eventSize (buffer : List UInt8) (i : ℕ) : Except Fault ℕ := do
  let len ← readAt buffer (i + 12) 4
  .ok (offsetofName + ofLe len)

/-- The body of the loop of `read_events`, with the block from `malloc`, which
gets the bytes that `memmove` copies; its link is set by `queue_enqueue`. -/
def queueEvent (s : LoopState) (buffer : List UInt8) (i : ℕ) (count : ℤ) (event : Addr) :
    Except Fault (LoopState × List Label) := do
  let size ← eventSize buffer i
  let bytes ← readAt buffer i size
  let queue := s.queue.setEntry event (some ⟨none, bytes⟩)
  let queue ← queueEnqueue event queue
  .ok ({ s with queue := queue, pc := .parse buffer (i + size) (count + 1) },
    [.enqueue event bytes])

/-- The call of `handle_event`, which reads the entry. -/
def handleStep (s : LoopState) (event : Option Addr) (watchedItems : UInt64) :
    Except Fault (LoopState × List Label) :=
  match event with
  | none => .error .badPointer
  | some a => do
    let e ← s.queue.deref a
    .ok ({ s with watchedItems := watchedItems, pc := .free a }, [.handle a e.inotEv])

/-- `event = queue_dequeue(q)` -/
def dequeueStep (s : LoopState) : Except Fault (LoopState × List Label) := do
  let (event, queue) ← queueDequeue s.queue
  .ok ({ s with queue := queue, pc := .handle event }, [])

/-- `free(event)`, and back to the test of `queue_empty`. -/
def freeStep (s : LoopState) (event : Addr) : Except Fault (LoopState × List Label) := do
  let queue ← s.queue.free event
  .ok ({ s with queue := queue, pc := .drain }, [.free event])

/-- A step that may fault. -/
def orFault (s : LoopState) : Except Fault (LoopState × List Label) → LoopState × List Label
  | .ok r => r
  | .error e => (s.goto (.fault e), [])

/-- The step that stands at the program counter, with what it does; `none`
when the input is not one for this step.  A block from `malloc` is not in use,
and a batch is not empty and fits the buffer. -/
def step (s : LoopState) (input : Input) : Option (LoopState × List Label) :=
  match input, s.pc with
  | .signal, _ => some ({ s with keepRunning := false }, [.signal])
  | .go, .whileWatched =>
    some (s.goto (if s.keepRunning && s.watchedItems > 0 then .eventCheck else .returned), [])
  | .go, .eventCheck =>
    some (s.goto (if s.keepRunning then .poll else .checked HELPERS_INVALID_EXIT), [])
  | .poll ret pollin, .poll => some (s.goto (polled ret pollin), [])
  | .go, .checked ret => some (s.goto (if ret > 0 then .read else .whileWatched), [])
  | .read none, .read => some ({ s with rc := HELPERS_INVALID_EXIT, pc := .returned }, [])
  | .read (some records), .read =>
    if records ≠ [] ∧ (encodeAll records).length ≤ HELPERS_MAX_BUFFER_SIZE then
      some (s.goto (.parse (encodeAll records) 0 0), [.read records])
    else none
  | .go, .parse buffer i count =>
    if i < buffer.length && s.keepRunning then some (s.goto (.parseEvent buffer i count), [])
    else some ({ s with rc := count, pc := if count < 0 then .returned else .drain }, [])
  | .malloc event, .parseEvent buffer i count =>
    if s.queue.entries event = none then some (s.orFault (s.queueEvent buffer i count event))
    else none
  | .go, .drain => some (s.goto (if queueEmpty s.queue then .whileWatched else .dequeue), [])
  | .go, .dequeue => some (s.orFault s.dequeueStep)
  | .handled watchedItems, .handle event =>
    some (s.orFault (s.handleStep event watchedItems))
  | .go, .free event => some (s.orFault (s.freeStep event))
  | _, _ => none

/-- A run, with all it did. -/
def run : LoopState → List Input → Option (LoopState × List Label)
  | s, [] => some (s, [])
  | s, input :: inputs => do
    let (s, out) ← s.step input
    let (s, outs) ← run s inputs
    some (s, out ++ outs)

end LoopState

/-! ### What a run did -/

/-- The batches read. -/
def batches : List Label → List (List InotifyRecord) :=
  List.filterMap fun
    | .read records => some records
    | _ => none

/-- The events put in the queue. -/
def enqueued : List Label → List (Addr × List UInt8) :=
  List.filterMap fun
    | .enqueue a bytes => some (a, bytes)
    | _ => none

/-- The events passed to `handle_event`. -/
def handled : List Label → List (Addr × List UInt8) :=
  List.filterMap fun
    | .handle a bytes => some (a, bytes)
    | _ => none

/-- The events passed to `free`. -/
def freed : List Label → List Addr :=
  List.filterMap fun
    | .free a => some a
    | _ => none

/-- The signal has come. -/
def Label.isSignal : Label → Bool
  | .signal => true
  | _ => false

/-- What was done before the flag was cleared. -/
def beforeSignal (trace : List Label) : List Label := trace.takeWhile (!·.isSignal)

end SecuritySystem.Backup
