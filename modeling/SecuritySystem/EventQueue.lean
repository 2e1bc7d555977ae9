/-
SecuritySystem/EventQueue.lean

The event queue of services/helpers/helpers_event_queue.c.

A queue is a singly linked list with a head and a tail pointer.  The caller
allocates the entries, puts them in, takes them out again and frees them, so
`Queue.entries` is the heap of all entries, in the queue or not; an address
without an entry is not allocated.  An access through such an address is a
fault.

`Op` is what a program does with a queue: the two calls, and its own writes to
entries that are not in the queue.
-/
import SecuritySystem.HashTable

namespace SecuritySystem

open CMem

/-! ### Types -/

/-- `struct queue_entry`, for events of any type. -/
structure QueueEntry (ε : Type*) where
  nextPtr : Option Addr
  inotEv : ε
deriving DecidableEq

/-- The allocated entries. -/
abbrev Entries (ε : Type*) := Addr → Option (QueueEntry ε)

/-- `struct queue_struct` -/
structure QueueStruct where
  head : Option Addr
  tail : Option Addr
deriving DecidableEq

/-- A queue, with the heap its entries live in. -/
structure Queue (ε : Type*) extends QueueStruct where
  entries : Entries ε

variable {ε : Type*}

/-! ### The heap of entries -/

namespace Queue

/-- `*a` -/
def deref (q : Queue ε) (a : Addr) : Except Fault (QueueEntry ε) :=
  match q.entries a with
  | some e => .ok e
  | none => .error .badPointer

/-- The link of an entry; the entries of a queue are met from `head` along it. -/
def nextOf (q : Queue ε) (a : Addr) : Option Addr := (q.entries a).bind (·.nextPtr)

/-- The event of an entry. -/
def eventOf (q : Queue ε) (a : Addr) : Option ε := (q.entries a).map (·.inotEv)

/-- The queue with another entry at an address, or with none. -/
def setEntry (q : Queue ε) (a : Addr) (e : Option (QueueEntry ε)) : Queue ε :=
  { q with entries := Function.update q.entries a e }

/-- `a->next_ptr = p` -/
def setNext (q : Queue ε) (a : Addr) (p : Option Addr) : Except Fault (Queue ε) :=
  match q.entries a with
  | some e => .ok (q.setEntry a (some { e with nextPtr := p }))
  | none => .error .badPointer

/-- `free(a)` -/
def free (q : Queue ε) (a : Addr) : Except Fault (Queue ε) :=
  match q.entries a with
  | some _ => .ok (q.setEntry a none)
  | none => .error .useAfterFree

end Queue

/-! ### The operations -/

/-- `queue_empty` -/
def queueEmpty (q : Queue ε) : Bool := q.head = none

/-- `queue_create`; without memory the program exits, and there is no queue. -/
def queueCreate (memory : Bool) (entries : Entries ε) : Option (Queue ε) :=
  if memory then some ⟨⟨none, none⟩, entries⟩ else none

/-- The body of the loop of `queue_destroy`, for the head `next`. -/
def destroyHead (q : Queue ε) (next : Addr) : Except Fault (Queue ε) := do
  let e ← q.deref next
  let q ← { q with head := e.nextPtr }.setNext next none
  q.free next

/-- `while (NULL != q->head)`: the entries freed, in order; `none` when the
loop has not ended after the given number of tests. -/
def destroyLoop : ℕ → Queue ε → Option (Except Fault (List Addr × Queue ε))
  | 0, _ => none
  | n + 1, q =>
    match q.head with
    | none => some (.ok ([], q))
    | some next =>
      match destroyHead q next with
      | .error e => some (.error e)
      | .ok q => (destroyLoop n q).map fun r => r.map fun (freed, q) => (next :: freed, q)

/-- `queue_destroy`: the entries freed, and the heap of entries afterwards.
The queue itself is gone. -/
def queueDestroy (tests : ℕ) (q : Option QueueStruct) (entries : Entries ε) :
    Option (Except Fault (List Addr × Entries ε)) :=
  match q with
  | none => some (.ok ([], entries))
  | some q =>
    (destroyLoop tests ⟨q, entries⟩).map fun r => r.map fun (freed, q) => (freed, q.entries)

/-- `queue_enqueue` -/
def queueEnqueue (d : Addr) (q : Queue ε) : Except Fault (Queue ε) := do
  let q ← q.setNext d none
  match q.tail with
  | some tail =>
    let q ← q.setNext tail (some d)
    .ok { q with tail := some d }
  | none => .ok { q with head := some d, tail := some d }

/-- `queue_dequeue` -/
def queueDequeue (q : Queue ε) : Except Fault (Option Addr × Queue ε) :=
  match q.head with
  | none => .ok (none, q)
  | some first => do
    let e ← q.deref first
    let q := { q with head := e.nextPtr }
    let q := if q.head = none then { q with tail := none } else q
    let q ← q.setNext first none
    .ok (some first, q)

/-! ### Programs -/

/-- What a program does with a queue: the calls, and writes to an entry that
is its own: `malloc` and filling in the event, or `free` with `none`. -/
inductive Op (ε : Type*)
  | enqueue (d : Addr)
  | dequeue
  | write (a : Addr) (e : Option (QueueEntry ε))

/-- One step of a program, with what `queue_dequeue` returned. -/
def Op.exec (q : Queue ε) : Op ε → Except Fault (List (Option Addr) × Queue ε)
  | .enqueue d => (queueEnqueue d q).map fun q => ([], q)
  | .dequeue => (queueDequeue q).map fun (first, q) => ([first], q)
  | .write a e => .ok ([], q.setEntry a e)

/-- A program, with the results of its calls of `queue_dequeue` in order. -/
def Op.execAll : List (Op ε) → Queue ε → Except Fault (List (Option Addr) × Queue ε)
  | [], q => .ok ([], q)
  | op :: ops, q => do
    let (out, q) ← op.exec q
    let (outs, q) ← execAll ops q
    .ok (out ++ outs, q)

end SecuritySystem
