/-
SecuritySystem/Backup/EventThreadSafety.lean

What every run of the event thread does.

The machine of the thread contains the machine of the event loop, and each of
its steps is a step of the loop, or leaves the loop where it was but for the
counter and the flag.  So the invariant of the loop carries over
(`DirInv.loop`).  Next to it stand what the loop does not know: that the
events passed to the handler are those of the records handled, that the shared
state is what these events and the other thread have made of it, and which
blocks the thread has got and given back.

Each step of the thread is one of the cases of `DirStep`; the invariant is
proved from these, one case at a time.
-/
import SecuritySystem.Backup.EventThread
import SecuritySystem.Backup.Command

namespace SecuritySystem.Backup

open CMem CString

variable {path : CString} {s s' : DirThread} {s₀ : State} {tr out : List DirLabel}
variable {ls : List Label}

/-! ### Reading an event back -/

/-- The event that a stretch of bytes stands for. -/
def decode (bytes : List UInt8) : Option InotifyEvent :=
  match readFields bytes with
  | .error _ => none
  | .ok fields => fields.event

/-- The handler sees the event that the kernel wrote. -/
theorem event_fields_record (e : KernelEvent) : e.record.fields.event = some e.event := by
  have hle := e.length_nameBytes_le
  have hlen : e.record.fields.len = UInt32.ofNat e.nameBytes.length := rfl
  have hzero : UInt32.ofNat e.nameBytes.length = 0 ↔ e.nameBytes.length = 0 := by
    rw [← UInt32.toNat_inj, UInt32.toNat_ofNat_of_lt' (by exact hle.trans_lt (by decide))]
    rfl
  rcases e with ⟨wd, mask, cookie, - | f, hmax, padding⟩
  · rfl
  · have hpos : (KernelEvent.mk wd mask cookie (some f) hmax padding).nameBytes.length ≠ 0 := by
      rw [KernelEvent.nameBytes, List.length_append, List.length_replicate]
      omega
    -- the first NUL of the padding ends the name
    have hread : CString.ofMem (f.bytes ++ List.replicate (padding + 1) 0) = f :=
      ofMem_bytes_append f rfl
    have hfit : (CString.ofMem (f.bytes ++ List.replicate (padding + 1) 0)).strlen ≤ 255 := by
      rw [hread]
      exact hmax f rfl
    unfold EventFields.event
    rw [hlen, if_neg (fun h => hpos (hzero.mp h))]
    refine (dif_pos hfit).trans (congrArg some ?_)
    simp only [KernelEvent.event, InotifyEvent.mk.injEq, Option.some.injEq]
    exact ⟨rfl, rfl, rfl, hread⟩

theorem decode_encode (e : KernelEvent) : decode e.record.encode = some e.event := by
  unfold decode
  rw [readFields_encode]
  exact event_fields_record e

/-! ### The traces of the loop and of the thread -/

section Traces

@[simp] theorem loopTrace_append : loopTrace (tr ++ out) = loopTrace tr ++ loopTrace out :=
  List.filterMap_append

@[simp] theorem deliveries_append : deliveries (tr ++ out) = deliveries tr ++ deliveries out :=
  List.filterMap_append

@[simp] theorem handledEvents_append :
    handledEvents (tr ++ out) = handledEvents tr ++ handledEvents out := List.filterMap_append

@[simp] theorem allocated_append : allocated (tr ++ out) = allocated tr ++ allocated out :=
  List.filterMap_append

@[simp] theorem released_append : released (tr ++ out) = released tr ++ released out :=
  List.filterMap_append

@[simp] theorem closes_append : closes (tr ++ out) = closes tr ++ closes out :=
  List.filterMap_append

@[simp] theorem replay_append : replay s₀ (tr ++ out) = replay (replay s₀ tr) out :=
  List.foldl_append

/-- The blocks of the events that were put in the queue. -/
def entryBlocks (ls : List Label) : List Block := (enqueued ls).map fun w => .entry w.1

/-- The blocks of the events that were freed. -/
def freedBlocks (ls : List Label) : List Block := (freed ls).map .entry

/-- Steps of the loop show nothing else. -/
theorem of_loop (ls : List Label) :
    loopTrace (ls.map .loop) = ls ∧ deliveries (ls.map .loop) = [] ∧
      handledEvents (ls.map .loop) = [] ∧ closes (ls.map .loop) = [] ∧
      allocated (ls.map .loop) = entryBlocks ls ∧ released (ls.map .loop) = freedBlocks ls := by
  induction ls with
  | nil => exact ⟨rfl, rfl, rfl, rfl, rfl, rfl⟩
  | cons l ls ih =>
    obtain ⟨h₁, h₂, h₃, h₄, h₅, h₆⟩ := ih
    refine ⟨congrArg (l :: ·) h₁, h₂, h₃, h₄, ?_, ?_⟩
    · cases l with
      | enqueue a bytes => exact congrArg (.entry a :: ·) h₅
      | _ => exact h₅
    · cases l with
      | free a => exact congrArg (.entry a :: ·) h₆
      | _ => exact h₆

/-- Only the signal handler of the loop's machine touches the shared state. -/
theorem replay_loop (h : Label.signal ∉ ls) : replay s₀ (ls.map .loop) = s₀ := by
  induction ls generalizing s₀ with
  | nil => rfl
  | cons l ls ih =>
    obtain ⟨hl, hls⟩ := not_or.mp (mt List.mem_cons.mpr h)
    cases l with
    | signal => exact absurd rfl hl
    | _ => exact ih hls

end Traces

/-! ### Steps -/

/-- A step of the loop that needs nothing but an input neither reads nor
handles, and leaves the counter alone. -/
theorem plain_step {l l' : LoopState} {input : Input} (hplain : DirThread.plain input = true)
    (h : l.step input = some (l', ls)) :
    batches ls = [] ∧ handled ls = [] ∧ Label.signal ∉ ls ∧ l'.watchedItems = l.watchedItems := by
  have hfault : ∀ {r : Except Fault (LoopState × List Label)}, l.orFault r = (l', ls) →
      (∀ t out, r = .ok (t, out) → batches out = [] ∧ handled out = [] ∧ Label.signal ∉ out ∧
        t.watchedItems = l.watchedItems) →
      batches ls = [] ∧ handled ls = [] ∧ Label.signal ∉ ls ∧ l'.watchedItems = l.watchedItems := by
    rintro (e | ⟨t, out⟩) hr hall
    · obtain ⟨rfl, rfl⟩ := Prod.mk.inj hr
      exact ⟨rfl, rfl, List.not_mem_nil, rfl⟩
    · obtain ⟨rfl, rfl⟩ := Prod.mk.inj hr
      exact hall _ _ rfl
  unfold LoopState.step at h
  split at h
  · cases hplain
  · cases h
    exact ⟨rfl, rfl, List.not_mem_nil, rfl⟩
  · cases h
    exact ⟨rfl, rfl, List.not_mem_nil, rfl⟩
  · cases h
    exact ⟨rfl, rfl, List.not_mem_nil, rfl⟩
  · cases h
    exact ⟨rfl, rfl, List.not_mem_nil, rfl⟩
  · cases h
    exact ⟨rfl, rfl, List.not_mem_nil, rfl⟩
  · cases hplain
  · -- the test of the parse loop
    split at h
    · cases h
      exact ⟨rfl, rfl, List.not_mem_nil, rfl⟩
    · cases h
      exact ⟨rfl, rfl, List.not_mem_nil, rfl⟩
  · -- one more event is queued
    split at h
    · refine hfault (Option.some.inj h) fun t out ht => ?_
      obtain ⟨size, -, ht⟩ := bind_eq_ok ht
      obtain ⟨bytes, -, ht⟩ := bind_eq_ok ht
      obtain ⟨queue, -, ht⟩ := bind_eq_ok ht
      cases ht
      exact ⟨rfl, rfl, by simp, rfl⟩
    · cases h
  · cases h
    exact ⟨rfl, rfl, List.not_mem_nil, rfl⟩
  · refine hfault (Option.some.inj h) fun t out ht => ?_
    obtain ⟨⟨event, queue⟩, -, ht⟩ := bind_eq_ok ht
    cases ht
    exact ⟨rfl, rfl, List.not_mem_nil, rfl⟩
  · cases hplain
  · refine hfault (Option.some.inj h) fun t out ht => ?_
    obtain ⟨queue, -, ht⟩ := bind_eq_ok ht
    cases ht
    exact ⟨rfl, rfl, by simp, rfl⟩
  · cases h

/-- Where the call of `watch_dir` leads. -/
def afterWatch : Except Fault ℤ → DirPc
  | .error e => .fault e
  | .ok wd => if wd > 0 then .processing else .closing

/-- Everything that a step can do, by whether the thread itself makes it. -/
inductive DirStep (path : CString) (s : DirThread) : Bool → DirThread → List DirLabel → Prop
  | signal :
    DirStep path s false { s with
      loop.keepRunning := false
      handler := s.handler.log sigintMessage } [.loop .signal]
  | scanned (t : HashTable) (w : UInt64) (messages : List CString) :
    DirStep path s false { s with
      loop.watchedItems := w
      handler := s.handler.scanned t w messages } [.scanned t w messages]
  | opened (fd : ℤ) : s.pc = .opening →
    DirStep path s true
      { s with pc := if fd > HELPERS_NORMAL_EXIT then .creating else .destroying } []
  | exited : s.pc = .creating → DirStep path s true { s with pc := .exited } []
  | created : s.pc = .creating →
    DirStep path s true { s with
      pc := .watching
      created := true
      loop.queue := ⟨⟨none, none⟩, s.loop.queue.entries⟩ } [.queueCreated]
  | watched (wd : Int32) : s.pc = .watching →
    DirStep path s true { s with
      pc := afterWatch (watchRoot wd s.handler).2
      loop.watchedItems := (watchRoot wd s.handler).1.watchedItems
      handler := (watchRoot wd s.handler).1 } [.watched wd]
  | looped {input : Input} {l : LoopState} {ls : List Label} : s.pc = .processing →
    DirThread.plain input = true → s.loop.step input = some (l, ls) →
    DirStep path s true { s with loop := l } (ls.map .loop)
  | delivered {events : List KernelEvent} {l : LoopState} {ls : List Label} :
    s.pc = .processing →
    s.loop.step (.read (some (events.map KernelEvent.record))) = some (l, ls) →
    DirStep path s true { s with loop := l } (.delivered events :: ls.map .loop)
  | unreadable {a : Addr} {e : Fault} : s.pc = .processing → s.loop.pc = .handle (some a) →
    DirThread.heldEvent s.loop a = .error e → DirStep path s true { s with pc := .fault e } []
  | faulted {a : Addr} {env : Env} {event : InotifyEvent} {h : State} {e : Fault} :
    s.pc = .processing → s.loop.pc = .handle (some a) →
    DirThread.heldEvent s.loop a = .ok (some event) → env.running = s.loop.keepRunning →
    env.pathToBackup = path → handleEvent env event s.handler = (h, some e) →
    DirStep path s true { s with
      pc := .fault e
      handler := h } [.event env event]
  | handled {a : Addr} {env : Env} {event : InotifyEvent} {h : State} {l : LoopState}
    {ls : List Label} : s.pc = .processing → s.loop.pc = .handle (some a) →
    DirThread.heldEvent s.loop a = .ok (some event) → env.running = s.loop.keepRunning →
    env.pathToBackup = path → handleEvent env event s.handler = (h, none) →
    s.loop.step (.handled h.watchedItems) = some (l, ls) →
    DirStep path s true { s with
      loop := l
      handler := h } (.event env event :: ls.map .loop)
  | left : s.pc = .processing → s.loop.pc = .returned →
    DirStep path s true
      { s with pc := if s.loop.rc = HELPERS_INVALID_EXIT then .destroying else .closing } []
  | closeFailed (r : ℤ) : s.pc = .closing → r < 0 →
    DirStep path s true { s with pc := .destroying } [.closed r]
  | closed (r : ℤ) : s.pc = .closing → ¬ r < 0 →
    DirStep path s true { s with
      pc := .destroying
      loop.watchedItems := 0
      handler.watchedItems := 0 } [.closed r]
  | destroying : s.pc = .destroying → DirStep path s true s.destroyStep.1 s.destroyStep.2

/-- The call of `handle_event`, in three cases. -/
theorem handleStep_cases {opendir : CString → Option (List Dirent)} {beyond : Addr → List UInt8}
    {a : Addr} (hpc : s.pc = .processing) (ha : s.loop.pc = .handle (some a))
    (h : s.handleStep path opendir beyond a = some (s', out)) : DirStep path s true s' out := by
  unfold DirThread.handleStep at h
  split at h
  · next e he =>
    cases h
    exact .unreadable hpc ha he
  · cases h
  · next event he =>
    dsimp only at h
    split at h
    · next t e ht =>
      cases h
      exact .faulted hpc ha he rfl rfl ht
    · next t ht =>
      obtain ⟨⟨l, ls⟩, hl, hs⟩ := Option.map_eq_some_iff.mp h
      obtain ⟨rfl, rfl⟩ := Prod.mk.inj hs
      exact .handled hpc ha he rfl rfl ht hl

theorem step_cases {input : DirInput} (h : s.step path input = some (s', out)) :
    DirStep path s input.own s' out := by
  unfold DirThread.step at h
  split at h
  · cases h
    exact .signal
  · cases h
    exact .scanned ..
  · next hpc =>
    cases h
    exact .opened _ hpc
  · next memory hpc =>
    cases memory with
    | false =>
      cases h
      exact .exited hpc
    | true =>
      cases h
      exact .created hpc
  · next wd hpc =>
    have hw := @DirStep.watched path s wd hpc
    revert h hw
    rcases watchRoot wd s.handler with ⟨t, e | r⟩
    · rintro h hw
      cases h
      exact hw
    · rintro h hw
      cases h
      exact hw
  · next hpc =>
    split at h
    · next hplain =>
      obtain ⟨⟨l, ls⟩, hl, hs⟩ := Option.map_eq_some_iff.mp h
      obtain ⟨rfl, rfl⟩ := Prod.mk.inj hs
      exact .looped hpc hplain hl
    · cases h
  · next hpc =>
    obtain ⟨⟨l, ls⟩, hl, hs⟩ := Option.map_eq_some_iff.mp h
    obtain ⟨rfl, rfl⟩ := Prod.mk.inj hs
    exact .delivered hpc hl
  · next hpc =>
    split at h
    · next ha => exact handleStep_cases hpc ha h
    · cases h
  · next hpc =>
    split at h
    · next ha =>
      cases h
      exact .left hpc ha
    · cases h
  · next r hpc =>
    split at h
    · next hr =>
      cases h
      exact .closeFailed r hpc hr
    · next hr =>
      cases h
      exact .closed r hpc hr
  · next hpc =>
    obtain ⟨rfl, rfl⟩ := Prod.mk.inj (Option.some.inj h)
    exact .destroying hpc
  · cases h

/-! ### The invariant -/

/-- What the thread has got and given back: nothing yet; the queue, and blocks
for the events; or the same, with the queue given back last. -/
inductive Ledger (tr : List DirLabel) (created : Bool) : Prop
  | unused : created = false → allocated tr = [] → released tr = [] →
    entryBlocks (loopTrace tr) = [] → freedBlocks (loopTrace tr) = [] → Ledger tr created
  | used : created = true → allocated tr = .queue :: entryBlocks (loopTrace tr) →
    released tr = freedBlocks (loopTrace tr) → Ledger tr created
  | done : created = false → allocated tr = .queue :: entryBlocks (loopTrace tr) →
    released tr = freedBlocks (loopTrace tr) ++ [.queue] → Ledger tr created

/-- The descriptor of inotify was closed once, unless it was never opened or a
`read` has failed. -/
def Closed (tr : List DirLabel) (s : DirThread) : Prop :=
  closes tr = [] ∧ (allocated tr = [] ∨ s.loop.rc = HELPERS_INVALID_EXIT) ∨
    (∃ r, closes tr = [r]) ∧ allocated tr ≠ [] ∧ s.loop.rc ≠ HELPERS_INVALID_EXIT

/-- What is known at each place of the thread. -/
def Place (tr : List DirLabel) (s : DirThread) : Prop :=
  match s.pc with
  | .opening | .creating => s.created = false ∧ s.loop.pc = .whileWatched ∧
      s.loop.rc = HELPERS_NORMAL_EXIT ∧ s.loop.queue.toQueueStruct = ⟨none, none⟩ ∧
      allocated tr = [] ∧ closes tr = []
  | .watching => s.created = true ∧ s.loop.pc = .whileWatched ∧
      s.loop.rc = HELPERS_NORMAL_EXIT ∧ closes tr = []
  | .processing => s.created = true ∧ closes tr = []
  | .closing => s.created = true ∧ s.loop.pc.outside = true ∧
      s.loop.rc ≠ HELPERS_INVALID_EXIT ∧ closes tr = []
  | .destroying => s.loop.pc.outside = true ∧ Closed tr s
  | .returned => s.created = false ∧ s.loop.pc.outside = true ∧ Closed tr s
  | .exited | .fault _ => True

/-- The invariant, for a thread that found the shared state `s₀`. -/
structure DirInv (s₀ : State) (tr : List DirLabel) (s : DirThread) : Prop where
  loop : Invariant (loopTrace tr) s.loop
  place : Place tr s
  ledger : Ledger tr s.created
  replay : s.handler = replay s₀ tr
  delivered : batches (loopTrace tr) = (deliveries tr).map (List.map KernelEvent.record)
  /-- the events are those of the records that were queued, in order -/
  events : (handledEvents tr).map some <+: (enqueued (loopTrace tr)).map fun w => decode w.2
  /-- the loop knows of the events from which the handler has returned, and of
  the counter -/
  running : (∀ e, s.pc ≠ .fault e) →
    (handledEvents tr).map some = ((handled (loopTrace tr)).map fun w => decode w.2) ∧
      s.loop.watchedItems = s.handler.watchedItems

/-- The labels say nothing of events and blocks. -/
structure Quiet (out : List DirLabel) : Prop where
  batches : batches (loopTrace out) = []
  enqueued : enqueued (loopTrace out) = []
  handled : handled (loopTrace out) = []
  freed : freed (loopTrace out) = []
  deliveries : deliveries out = []
  events : handledEvents out = []
  allocated : allocated out = []
  released : released out = []

/-- A step without events and blocks. -/
theorem DirInv.move (h : DirInv s₀ tr s) (hquiet : Quiet out)
    (hloop : Invariant (loopTrace (tr ++ out)) s'.loop) (hplace : Place (tr ++ out) s')
    (hcreated : s'.created = s.created) (hreplay : s'.handler = Backup.replay s.handler out)
    (hrunning : (∀ e, s'.pc ≠ .fault e) →
      (∀ e, s.pc ≠ .fault e) ∧ s'.loop.watchedItems = s'.handler.watchedItems) :
    DirInv s₀ (tr ++ out) s' := by
  have hatr : allocated (tr ++ out) = allocated tr := by
    rw [allocated_append, hquiet.allocated, List.append_nil]
  have hrtr : released (tr ++ out) = released tr := by
    rw [released_append, hquiet.released, List.append_nil]
  have hentries : entryBlocks (loopTrace (tr ++ out)) = entryBlocks (loopTrace tr) := by
    rw [entryBlocks, loopTrace_append, enqueued_append, hquiet.enqueued, List.append_nil]
    rfl
  have hfreed : freedBlocks (loopTrace (tr ++ out)) = freedBlocks (loopTrace tr) := by
    rw [freedBlocks, loopTrace_append, freed_append, hquiet.freed, List.append_nil]
    rfl
  have hetr : handledEvents (tr ++ out) = handledEvents tr := by
    rw [handledEvents_append, hquiet.events, List.append_nil]
  refine ⟨hloop, hplace, ?_, ?_, ?_, ?_, fun hpc => ?_⟩
  · rw [hcreated]
    rcases h.ledger with ⟨hc, h₁, h₂, h₃, h₄⟩ | ⟨hc, h₁, h₂⟩ | ⟨hc, h₁, h₂⟩
    · exact .unused hc (hatr.trans h₁) (hrtr.trans h₂) (hentries.trans h₃) (hfreed.trans h₄)
    · exact .used hc (by rw [hatr, hentries, h₁]) (by rw [hrtr, hfreed, h₂])
    · exact .done hc (by rw [hatr, hentries, h₁]) (by rw [hrtr, hfreed, h₂])
  · rw [hreplay, replay_append, h.replay]
  · rw [loopTrace_append, batches_append, hquiet.batches, deliveries_append, hquiet.deliveries,
      List.append_nil, List.append_nil]
    exact h.delivered
  · rw [hetr, loopTrace_append, enqueued_append, hquiet.enqueued, List.append_nil]
    exact h.events
  · obtain ⟨hpc, hw⟩ := hrunning hpc
    rw [hetr, loopTrace_append, handled_append, hquiet.handled, List.append_nil]
    exact ⟨(h.running hpc).1, hw⟩

/-- A step that shows nothing. -/
theorem DirInv.goto (h : DirInv s₀ tr s) (hloop : s'.loop = s.loop)
    (hplace : Place tr s') (hcreated : s'.created = s.created) (hhandler : s'.handler = s.handler)
    (hpc : ∀ e, s.pc ≠ .fault e) : DirInv s₀ (tr ++ []) s' := by
  refine h.move ⟨rfl, rfl, rfl, rfl, rfl, rfl, rfl, rfl⟩ ?_ ?_ hcreated hhandler fun _ => ⟨hpc, ?_⟩
  · rw [List.append_nil, hloop]
    exact h.loop
  · rw [List.append_nil]
    exact hplace
  · rw [hloop, hhandler]
    exact (h.running hpc).2

/-! ### Steps of the loop -/

section Loop

variable {l l' : LoopState} {ltr : List Label} {a : Addr} {w : UInt64}

/-- What is handled was queued, in that order. -/
theorem Invariant.handled_prefix (h : Invariant ltr l) : handled ltr <+: enqueued ltr := by
  obtain ⟨⟨_, waiting, hq⟩, -⟩ := h
  exact ⟨waiting, hq.enqueued.symm⟩

/-- The entry that is taken out is the next one that was queued. -/
theorem Invariant.held (h : Invariant ltr l) (hpc : l.pc = .handle (some a)) :
    ∃ bytes, l.queue.eventOf a = some bytes ∧ handled ltr ++ [(a, bytes)] <+: enqueued ltr := by
  obtain ⟨⟨_, waiting, hq⟩, -⟩ := h
  have haddrs := hq.addrs
  rw [hpc] at haddrs
  obtain ⟨⟨b, bytes⟩, rest, rfl, hb, -⟩ := List.map_eq_cons_iff.mp haddrs
  obtain rfl : b = a := hb
  refine ⟨bytes, hq.events _ List.mem_cons_self, rest, ?_⟩
  rw [hq.enqueued, List.append_assoc, List.singleton_append]

theorem heldEvent_of_eventOf {bytes : List UInt8} (h : l.queue.eventOf a = some bytes)
    {event : InotifyEvent} (he : DirThread.heldEvent l a = .ok (some event)) :
    decode bytes = some event := by
  obtain ⟨e, he', hbytes⟩ := Option.map_eq_some_iff.mp h
  rw [DirThread.heldEvent, Queue.deref_of_some he', ok_bind, hbytes] at he
  obtain ⟨fields, hfields, he⟩ := bind_eq_ok he
  rw [decode, hfields]
  exact Except.ok.inj he

/-- The counter plays no part in the invariant of the loop. -/
theorem Invariant.setWatched (h : Invariant ltr l) (w : UInt64) :
    Invariant ltr { l with watchedItems := w } := by
  obtain ⟨⟨as, waiting, hq⟩, hbatch⟩ := h
  exact ⟨⟨as, waiting, hq.holds, hq.enqueued, hq.addrs, hq.events, hq.freed, hq.atPc⟩, hbatch⟩

theorem read_step {rs : List InotifyRecord} (h : l.step (.read (some rs)) = some (l', ls)) :
    ls = [.read rs] ∧ l'.watchedItems = l.watchedItems := by
  rw [LoopState.step.eq_def] at h
  -- no other place takes this input
  cases hpc : l.pc with
  | read =>
    simp only [hpc] at h
    split at h
    · cases h
      exact ⟨rfl, rfl⟩
    · cases h
  | _ =>
    simp only [hpc] at h
    cases h

theorem handled_step (hpc : l.pc = .handle (some a)) {bytes : List UInt8}
    (hbytes : l.queue.eventOf a = some bytes) (h : l.step (.handled w) = some (l', ls)) :
    ls = [.handle a bytes] ∧ l'.watchedItems = w := by
  obtain ⟨e, he, rfl⟩ := Option.map_eq_some_iff.mp hbytes
  have hstep : l.step (.handled w) = some (l.orFault (l.handleStep (some a) w)) := by
    rw [LoopState.step.eq_def]
    simp only [hpc]
  rw [hstep, LoopState.handleStep, Queue.deref_of_some he] at h
  cases h
  exact ⟨rfl, rfl⟩

end Loop

/-! ### Each step keeps the invariant -/

theorem Ledger.allocated_of_created (h : Ledger tr true) :
    allocated tr = .queue :: entryBlocks (loopTrace tr) ∧
      released tr = freedBlocks (loopTrace tr) := by
  rcases h with ⟨hc, -⟩ | ⟨-, h₁, h₂⟩ | ⟨hc, -⟩
  · cases hc
  · exact ⟨h₁, h₂⟩
  · cases hc

theorem entryBlocks_append (ls ls' : List Label) :
    entryBlocks (ls ++ ls') = entryBlocks ls ++ entryBlocks ls' := by
  rw [entryBlocks, enqueued_append, List.map_append]
  rfl

theorem freedBlocks_append (ls ls' : List Label) :
    freedBlocks (ls ++ ls') = freedBlocks ls ++ freedBlocks ls' := by
  rw [freedBlocks, freed_append, List.map_append]
  rfl

/-- A step of the loop, with the events that the handler gets in it. -/
theorem DirInv.looped (h : DirInv s₀ tr s) (hpc : s.pc = .processing) {input : Input}
    {l : LoopState} {ls : List Label} (hl : s.loop.step input = some (l, ls)) {t : State}
    (pre : List DirLabel) (hnew : loopTrace pre = [] ∧ allocated pre = [] ∧ released pre = [] ∧
      closes pre = [])
    (hbatches : batches ls = (deliveries pre).map (List.map KernelEvent.record))
    (hevents : (handledEvents pre).map some = (handled ls).map fun w => decode w.2)
    (ht : t = Backup.replay s.handler (pre ++ ls.map .loop))
    (hw : l.watchedItems = t.watchedItems) :
    DirInv s₀ (tr ++ (pre ++ ls.map .loop)) { s with loop := l, handler := t } := by
  have hplace := h.place
  rw [Place, hpc] at hplace
  obtain ⟨hcreated, hcloses⟩ := hplace
  obtain ⟨hpl, hpa, hpr, hpc'⟩ := hnew
  obtain ⟨hlt, hld, hle, hlc, hla, hlr⟩ := of_loop ls
  have hltr : loopTrace (tr ++ (pre ++ ls.map .loop)) = loopTrace tr ++ ls := by
    rw [loopTrace_append, loopTrace_append, hpl, hlt, List.nil_append]
  have hetr : handledEvents (tr ++ (pre ++ ls.map .loop)) =
      handledEvents tr ++ handledEvents pre := by
    rw [handledEvents_append, handledEvents_append, hle, List.append_nil]
  have hinv : Invariant (loopTrace tr ++ ls) l := h.loop.step hl
  have hhandled : (handledEvents (tr ++ (pre ++ ls.map .loop))).map some =
      (handled (loopTrace tr ++ ls)).map fun w => decode w.2 := by
    rw [hetr, List.map_append, (h.running (by rw [hpc]; exact nofun)).1, hevents, handled_append,
      List.map_append]
  have hledger := h.ledger
  rw [hcreated] at hledger
  obtain ⟨halloc, hrel⟩ := hledger.allocated_of_created
  refine ⟨?_, ?_, ?_, ?_, ?_, ?_, fun _ => ⟨?_, hw⟩⟩
  · rw [hltr]
    exact hinv
  · show Place _ { s with loop := l, handler := t }
    rw [Place, hpc, closes_append, closes_append, hcloses, hpc', hlc]
    exact ⟨hcreated, rfl⟩
  · refine .used hcreated ?_ ?_
    · rw [allocated_append, allocated_append, hpa, hla, halloc, hltr, entryBlocks_append]
      rfl
    · rw [released_append, released_append, hpr, hlr, hrel, hltr, freedBlocks_append]
      rfl
  · rw [replay_append, ← h.replay]
    exact ht
  · rw [hltr, batches_append, h.delivered, hbatches, deliveries_append, deliveries_append, hld,
      List.append_nil, List.map_append]
  · rw [hhandled, hltr]
    exact hinv.handled_prefix.map _
  · rw [hhandled, hltr]

/-- The handler has faulted: its event is the last one. -/
theorem DirInv.faulted (h : DirInv s₀ tr s) (hpc : s.pc = .processing) {a : Addr}
    (ha : s.loop.pc = .handle (some a)) {env : Env} {event : InotifyEvent}
    (hevent : DirThread.heldEvent s.loop a = .ok (some event)) {t : State} {e : Fault}
    (ht : handleEvent env event s.handler = (t, some e)) :
    DirInv s₀ (tr ++ [.event env event]) { s with pc := .fault e, handler := t } := by
  have hltr : loopTrace (tr ++ [.event env event]) = loopTrace tr := by
    rw [loopTrace_append]
    exact List.append_nil _
  have hledger := h.ledger
  have hplace := h.place
  rw [Place, hpc] at hplace
  rw [hplace.1] at hledger
  obtain ⟨halloc, hrel⟩ := hledger.allocated_of_created
  refine ⟨?_, trivial, .used hplace.1 ?_ ?_, ?_, ?_, ?_, fun hne => absurd rfl (hne e)⟩
  · rw [hltr]
    exact h.loop
  · rw [allocated_append, hltr, halloc]
    exact List.append_nil _
  · rw [released_append, hltr, hrel]
    exact List.append_nil _
  · rw [replay_append, ← h.replay]
    exact (congrArg Prod.fst ht).symm
  · rw [hltr, h.delivered, deliveries_append]
    exact congrArg _ (List.append_nil _).symm
  · obtain ⟨bytes, hbytes, hpre⟩ := h.loop.held ha
    have hdecode := heldEvent_of_eventOf hbytes hevent
    have hmap := hpre.map fun w => decode w.2
    rw [List.map_append, ← (h.running (by rw [hpc]; exact nofun)).1] at hmap
    rw [hltr, handledEvents_append, List.map_append]
    show (handledEvents tr).map some ++ [some event] <+: _
    rw [← hdecode]
    exact hmap

/-- A place that the loop is not in looks the same after a signal, or when the
counter has changed. -/
theorem Place.congr (h : Place tr s) (hpc : s'.pc = s.pc) (hcreated : s'.created = s.created)
    (hloop : s'.loop.pc = s.loop.pc ∧ s'.loop.rc = s.loop.rc ∧ s'.loop.queue = s.loop.queue)
    (hout : allocated out = [] ∧ closes out = []) : Place (tr ++ out) s' := by
  obtain ⟨hlpc, hlrc, hlq⟩ := hloop
  have ha : allocated (tr ++ out) = allocated tr := by
    rw [allocated_append, hout.1, List.append_nil]
  have hc : closes (tr ++ out) = closes tr := by rw [closes_append, hout.2, List.append_nil]
  unfold Place Closed at h ⊢
  rw [hpc, hcreated, hlpc, hlrc, hlq, ha, hc]
  exact h

/-- Outside of its inner loops the event loop has an empty queue. -/
theorem Invariant.head_eq_none {l : LoopState} {ltr : List Label} (h : Invariant ltr l)
    (hout : l.pc.outside = true) : l.queue.head = none := by
  obtain ⟨⟨as, waiting, hq⟩, -⟩ := h
  obtain ⟨-, hat, -⟩ := Pc.outside_spec hout
  obtain rfl := (hat _ as).mp hq.atPc
  exact hq.holds.head_eq

/-- `queue_destroy` finds no entry left, and frees the queue alone. -/
theorem DirInv.destroying (h : DirInv s₀ tr s) (hpc : s.pc = .destroying) :
    DirInv s₀ (tr ++ s.destroyStep.2) s.destroyStep.1 := by
  have hplace := h.place
  rw [Place, hpc] at hplace
  obtain ⟨hout, hclosed⟩ := hplace
  have hrunning := h.running (by rw [hpc]; exact nofun)
  unfold DirThread.destroyStep
  by_cases hcreated : s.created = true
  · rw [if_pos hcreated, h.loop.head_eq_none hout]
    have hledger := h.ledger
    rw [hcreated] at hledger
    obtain ⟨halloc, hrel⟩ := hledger.allocated_of_created
    have hltr : loopTrace (tr ++ [.queueFreed]) = loopTrace tr := by
      rw [loopTrace_append]
      exact List.append_nil _
    refine ⟨?_, ⟨rfl, hout, ?_⟩, .done rfl ?_ ?_, ?_, ?_, ?_, fun _ => ?_⟩
    · rw [hltr]
      exact h.loop
    · unfold Closed at hclosed ⊢
      rw [closes_append, allocated_append]
      show closes tr ++ [] = [] ∧ (allocated tr ++ [] = [] ∨ _) ∨
        (∃ r, closes tr ++ [] = [r]) ∧ allocated tr ++ [] ≠ [] ∧ _
      rw [List.append_nil, List.append_nil]
      exact hclosed
    · rw [allocated_append, hltr, halloc]
      exact List.append_nil _
    · rw [released_append, hltr, hrel]
      rfl
    · rw [replay_append]
      exact h.replay
    · rw [hltr, h.delivered, deliveries_append]
      exact congrArg _ (List.append_nil _).symm
    · rw [hltr, handledEvents_append, List.map_append]
      show (handledEvents tr).map some ++ [] <+: _
      rw [List.append_nil]
      exact h.events
    · rw [hltr, handledEvents_append, List.map_append]
      show (handledEvents tr).map some ++ [] = _ ∧ _
      rw [List.append_nil]
      exact hrunning
  · rw [if_neg hcreated]
    refine h.goto rfl ⟨Bool.eq_false_iff.mpr hcreated, hout, hclosed⟩ rfl rfl ?_
    rw [hpc]
    exact nofun

/-- `queue_create` gives the queue that the loop starts with. -/
theorem DirInv.queueCreated (h : DirInv s₀ tr s) (hpc : s.pc = .creating) :
    DirInv s₀ (tr ++ [.queueCreated])
      { s with
        pc := .watching
        created := true
        loop.queue := ⟨⟨none, none⟩, s.loop.queue.entries⟩ } := by
  have hplace := h.place
  rw [Place, hpc] at hplace
  obtain ⟨hc, hlpc, hrc, hq, ha, hcl⟩ := hplace
  have hqueue : (⟨⟨none, none⟩, s.loop.queue.entries⟩ : Queue (List UInt8)) = s.loop.queue := by
    rw [← hq]
  rw [hqueue]
  have hltr : loopTrace (tr ++ [.queueCreated]) = loopTrace tr := by
    rw [loopTrace_append]
    exact List.append_nil _
  have hetr : handledEvents (tr ++ [.queueCreated]) = handledEvents tr := by
    rw [handledEvents_append]
    exact List.append_nil _
  -- nothing was allocated before
  obtain ⟨hr, he, hf⟩ : released tr = [] ∧ entryBlocks (loopTrace tr) = [] ∧
      freedBlocks (loopTrace tr) = [] := by
    rcases h.ledger with ⟨-, -, h₂, h₃, h₄⟩ | ⟨h₁, -⟩ | ⟨-, h₁, -⟩
    · exact ⟨h₂, h₃, h₄⟩
    · rw [hc] at h₁
      cases h₁
    · rw [ha] at h₁
      cases h₁
  refine ⟨?_, ⟨rfl, hlpc, hrc, ?_⟩, .used rfl ?_ ?_, ?_, ?_, ?_, fun _ => ?_⟩
  · rw [hltr]
    exact h.loop
  · rw [closes_append, hcl]
    rfl
  · rw [hltr, he, allocated_append, ha]
    rfl
  · rw [hltr, hf, released_append, hr]
    rfl
  · rw [replay_append]
    exact h.replay
  · rw [hltr, h.delivered, deliveries_append]
    exact congrArg _ (List.append_nil _).symm
  · rw [hetr, hltr]
    exact h.events
  · rw [hetr, hltr]
    exact h.running (by rw [hpc]; exact nofun)

/-- `close` is called once. -/
theorem DirInv.closing (h : DirInv s₀ tr s) (hpc : s.pc = .closing) {r : ℤ}
    (hpc' : s'.pc = .destroying) (hcreated : s'.created = s.created)
    (hsame : s'.loop.pc = s.loop.pc ∧ s'.loop.rc = s.loop.rc)
    (hloop : Invariant (loopTrace tr) s'.loop)
    (hreplay : s'.handler = Backup.replay s.handler [.closed r])
    (hw : s'.loop.watchedItems = s'.handler.watchedItems) :
    DirInv s₀ (tr ++ [.closed r]) s' := by
  have hplace := h.place
  rw [Place, hpc] at hplace
  obtain ⟨hc, hout, hrc, hcl⟩ := hplace
  have hledger := h.ledger
  rw [hc] at hledger
  refine h.move ⟨rfl, rfl, rfl, rfl, rfl, rfl, rfl, rfl⟩ ?_ ?_ hcreated hreplay fun _ => ⟨?_, hw⟩
  · rw [loopTrace_append]
    exact (List.append_nil (loopTrace tr)).symm ▸ hloop
  · rw [Place, hpc', hsame.1]
    refine ⟨hout, .inr ⟨⟨r, ?_⟩, ?_, ?_⟩⟩
    · rw [closes_append, hcl]
      rfl
    · rw [allocated_append, hledger.allocated_of_created.1]
      exact List.cons_ne_nil _ _
    · rw [hsame.2]
      exact hrc
  · rw [hpc]
    exact nofun

/-- **Each step of the thread keeps the invariant.** -/
theorem DirInv.step (h : DirInv s₀ tr s) {own : Bool} (hs : DirStep path s own s' out) :
    DirInv s₀ (tr ++ out) s' := by
  have hplace := h.place
  cases hs with
  | signal =>
    refine h.move ⟨rfl, rfl, rfl, rfl, rfl, rfl, rfl, rfl⟩ ?_
      (hplace.congr rfl rfl ⟨rfl, rfl, rfl⟩ ⟨rfl, rfl⟩) rfl rfl fun hne => ⟨hne, (h.running hne).2⟩
    rw [loopTrace_append]
    exact h.loop.signal
  | scanned t w messages =>
    refine h.move ⟨rfl, rfl, rfl, rfl, rfl, rfl, rfl, rfl⟩ ?_
      (hplace.congr rfl rfl ⟨rfl, rfl, rfl⟩ ⟨rfl, rfl⟩) rfl rfl fun hne => ⟨hne, rfl⟩
    rw [loopTrace_append]
    exact (List.append_nil (loopTrace tr)).symm ▸ h.loop.setWatched w
  | opened fd hpc =>
    rw [Place, hpc] at hplace
    obtain ⟨hc, hlpc, hrc, hq, ha, hcl⟩ := hplace
    refine h.goto rfl ?_ rfl rfl (by rw [hpc]; exact nofun)
    by_cases hfd : fd > HELPERS_NORMAL_EXIT
    · rw [if_pos hfd]
      exact ⟨hc, hlpc, hrc, hq, ha, hcl⟩
    · rw [if_neg hfd]
      exact ⟨by rw [hlpc]; rfl, .inl ⟨hcl, .inl ha⟩⟩
  | exited hpc => exact h.goto rfl trivial rfl rfl (by rw [hpc]; exact nofun)
  | created hpc => exact h.queueCreated hpc
  | watched wd hpc =>
    rw [Place, hpc] at hplace
    obtain ⟨hc, hlpc, hrc, hcl⟩ := hplace
    refine h.move ⟨rfl, rfl, rfl, rfl, rfl, rfl, rfl, rfl⟩ ?_ ?_ rfl rfl fun _ =>
      ⟨by rw [hpc]; exact nofun, rfl⟩
    · rw [loopTrace_append]
      exact (List.append_nil (loopTrace tr)).symm ▸ h.loop.setWatched _
    have hcl' : closes (tr ++ [.watched wd]) = [] := by rw [closes_append, hcl]; rfl
    rcases hr : (watchRoot wd s.handler).2 with e | r
    · exact trivial
    · by_cases hpos : r > 0
      · rw [afterWatch, if_pos hpos]
        exact ⟨hc, hcl'⟩
      · rw [afterWatch, if_neg hpos]
        exact ⟨hc, by rw [hlpc]; rfl, by rw [hrc]; decide, hcl'⟩
  | looped hpc hplain hl =>
    obtain ⟨hb, hh, hs, hw⟩ := plain_step hplain hl
    have hrun := h.running (by rw [hpc]; exact nofun)
    exact h.looped hpc hl [] ⟨rfl, rfl, rfl, rfl⟩ hb (by rw [hh]; rfl)
      (replay_loop hs).symm (hw.trans hrun.2)
  | delivered hpc hl =>
    obtain ⟨rfl, hw⟩ := read_step hl
    have hrun := h.running (by rw [hpc]; exact nofun)
    exact h.looped hpc hl [.delivered _] ⟨rfl, rfl, rfl, rfl⟩ rfl rfl rfl
      (hw.trans hrun.2)
  | @unreadable a e hpc ha he =>
    refine h.move ⟨rfl, rfl, rfl, rfl, rfl, rfl, rfl, rfl⟩ ?_ trivial rfl rfl fun hne =>
      absurd rfl (hne e)
    rw [List.append_nil]
    exact h.loop
  | faulted hpc ha hevent _ _ ht => exact h.faulted hpc ha hevent ht
  | handled hpc ha hevent _ _ ht hl =>
    obtain ⟨bytes, hbytes, -⟩ := h.loop.held ha
    obtain ⟨rfl, hw⟩ := handled_step ha hbytes hl
    refine h.looped hpc hl [.event _ _] ⟨rfl, rfl, rfl, rfl⟩ rfl ?_ ?_ hw
    · exact congrArg (fun e => [e]) (heldEvent_of_eventOf hbytes hevent).symm
    · exact (congrArg Prod.fst ht).symm
  | left hpc hret =>
    rw [Place, hpc] at hplace
    obtain ⟨hc, hcl⟩ := hplace
    have hout : s.loop.pc.outside = true := by rw [hret]; rfl
    refine h.goto rfl ?_ rfl rfl (by rw [hpc]; exact nofun)
    by_cases hrc : s.loop.rc = HELPERS_INVALID_EXIT
    · rw [if_pos hrc]
      exact ⟨hout, .inl ⟨hcl, .inr hrc⟩⟩
    · rw [if_neg hrc]
      exact ⟨hc, hout, hrc, hcl⟩
  | closeFailed r hpc hr =>
    refine h.closing hpc rfl rfl ⟨rfl, rfl⟩ (h.loop.setWatched _) ?_ (h.running ?_).2
    · exact (if_pos hr).symm
    · rw [hpc]
      exact nofun
  | closed r hpc hr =>
    refine h.closing hpc rfl rfl ⟨rfl, rfl⟩ (h.loop.setWatched 0) ?_ rfl
    exact (if_neg hr).symm
  | destroying hpc => exact h.destroying hpc

/-! ### Faults -/

/-- The fault of the call that a label stands for. -/
def DirLabel.fault (s : State) : DirLabel → Option Fault
  | .event env e => (handleEvent env e s).2
  | .watched wd =>
    match (watchRoot wd s).2 with
    | .error e => some e
    | .ok _ => none
  | _ => none

/-- A fault of the thread is one of `handle_event`, or of `watch_dir`. -/
def FaultsOnce (s₀ : State) (tr : List DirLabel) (s : DirThread) : Prop :=
  ∀ e, s.pc = .fault e →
    ∃ pre l post, tr = pre ++ l :: post ∧ l.fault (replay s₀ pre) = some e

theorem FaultsOnce.extend (h : FaultsOnce s₀ tr s) (hpc : s'.pc = s.pc) (out : List DirLabel) :
    FaultsOnce s₀ (tr ++ out) s' := by
  intro e he
  obtain ⟨pre, l, post, rfl, hl⟩ := h e (hpc.symm.trans he)
  exact ⟨pre, l, post ++ out, by rw [List.append_assoc, List.cons_append], hl⟩

/-- What was queued are the first records of the batches, as bytes. -/
theorem Invariant.enqueued_prefix {l : LoopState} {ltr : List Label} (h : Invariant ltr l) :
    (enqueued ltr).map Prod.snd <+: (batches ltr).flatten.map InotifyRecord.encode := by
  obtain ⟨-, completed, current, parsed, part, hb, -⟩ := h
  have ha := hb.accounted
  have hbefore : batches (beforeSignal ltr) <+: batches ltr := by
    obtain ⟨rest, hrest⟩ := List.takeWhile_prefix (l := ltr) (!·.isSignal)
    exact ⟨batches rest, by rw [← batches_append, beforeSignal, hrest]⟩
  rw [ha.all]
  refine List.IsPrefix.map _ ?_
  obtain ⟨rest, hrest⟩ := hbefore
  rw [← hrest, ha.reads, List.flatten_append, List.flatten_append, List.append_assoc]
  refine (List.prefix_append_right_inj _).mpr ?_
  rcases current with - | records
  · rw [List.prefix_nil.mp ha.within]
    exact List.nil_prefix
  · refine ha.within.trans ?_
    rw [Option.toList_some, List.flatten_singleton]
    exact List.prefix_append _ _

/-- The batches as the handler sees them. -/
theorem decode_batches (ds : List (List KernelEvent)) :
    (((ds.map (List.map KernelEvent.record)).flatten.map InotifyRecord.encode).map decode) =
      (ds.flatten.map KernelEvent.event).map some := by
  rw [← List.map_flatten, List.map_map, List.map_map, List.map_map]
  exact List.map_congr_left fun e _ => decode_encode e

/-- What is queued can be read. -/
theorem DirInv.decodes (h : DirInv s₀ tr s) {w : Addr × List UInt8}
    (hw : w ∈ enqueued (loopTrace tr)) : ∃ event, decode w.2 = some event := by
  have hmem := h.loop.enqueued_prefix.subset (List.mem_map_of_mem (f := Prod.snd) hw)
  rw [h.delivered] at hmem
  have hdecode := List.mem_map_of_mem (f := decode) hmem
  rw [decode_batches] at hdecode
  obtain ⟨event, -, he⟩ := List.mem_map.mp hdecode
  exact ⟨event, he.symm⟩

theorem FaultsOnce.step (h : FaultsOnce s₀ tr s) (hinv : DirInv s₀ tr s) {own : Bool}
    (hs : DirStep path s own s' out) : FaultsOnce s₀ (tr ++ out) s' := by
  cases hs with
  | signal => exact h.extend rfl _
  | scanned => exact h.extend rfl _
  | opened fd =>
    intro e he
    dsimp only at he
    split at he <;> cases he
  | exited => exact nofun
  | created => exact nofun
  | watched wd hpc =>
    intro e he
    refine ⟨tr, .watched wd, [], rfl, ?_⟩
    rw [DirLabel.fault, ← hinv.replay]
    rcases hr : (watchRoot wd s.handler).2 with e' | r
    · rw [hr] at he
      exact congrArg some (DirPc.fault.inj he)
    · rw [hr] at he
      unfold afterWatch at he
      dsimp only at he
      split at he <;> cases he
  | looped hpc => exact h.extend rfl _
  | delivered hpc => exact h.extend rfl _
  | unreadable hpc ha he =>
    -- the bytes of an entry are those of a record
    obtain ⟨bytes, hbytes, hpre⟩ := hinv.loop.held ha
    obtain ⟨event, hevent⟩ := hinv.decodes (hpre.subset List.mem_concat_self)
    obtain ⟨entry, hentry, rfl⟩ := Option.map_eq_some_iff.mp hbytes
    rw [DirThread.heldEvent, Queue.deref_of_some hentry, ok_bind] at he
    rw [decode] at hevent
    rcases hread : readFields entry.inotEv with e' | fields
    · rw [hread] at hevent
      cases hevent
    · rw [hread] at he
      cases he
  | @faulted a env event t e hpc ha hevent _ _ ht =>
    intro e' he'
    refine ⟨tr, .event env event, [], rfl, ?_⟩
    rw [DirLabel.fault, ← hinv.replay, ht]
    exact congrArg some (DirPc.fault.inj he')
  | handled hpc => exact h.extend rfl _
  | left =>
    intro e he
    dsimp only at he
    split at he <;> cases he
  | closeFailed => exact nofun
  | closed => exact nofun
  | destroying hpc =>
    have hplace := hinv.place
    rw [Place, hpc] at hplace
    unfold DirThread.destroyStep
    rw [hinv.loop.head_eq_none hplace.1]
    split <;> exact nofun

/-! ### Runs of `pthread_on_dir_run` -/

theorem dirInv_start (entries : Entries (List UInt8)) :
    DirInv s₀ [] (DirThread.start entries s₀) :=
  ⟨invariant_start _ entries, ⟨rfl, rfl, rfl, rfl, rfl, rfl⟩, .unused rfl rfl rfl rfl rfl, rfl, rfl,
    List.prefix_rfl, fun _ => ⟨rfl, rfl⟩⟩

/-- Each run keeps the invariant. -/
theorem DirInv.run {entries : Entries (List UInt8)} {inputs : List DirInput}
    (h : (DirThread.start entries s₀).run path inputs = some (s, tr)) :
    DirInv s₀ tr s ∧ FaultsOnce s₀ tr s := by
  have hrun := Machine.run_invariant (P := fun tr s => DirInv s₀ tr s ∧ FaultsOnce s₀ tr s)
    (fun hp hs => ⟨hp.1.step (step_cases hs), hp.2.step hp.1 (step_cases hs)⟩)
    ⟨dirInv_start entries, nofun⟩ h
  exact hrun

/-- While the flag is set, the loop has handled at rest whatever was read. -/
theorem Invariant.complete {l : LoopState} {ltr : List Label} (h : Invariant ltr l)
    (hrun : l.keepRunning = true) (hout : l.pc.outside = true) :
    handled ltr = enqueued ltr ∧
      (enqueued ltr).map Prod.snd = (batches ltr).flatten.map InotifyRecord.encode := by
  obtain ⟨⟨as, waiting, hq⟩, completed, current, parsed, part, hb, hp⟩ := h
  obtain ⟨⟨hheld, hunfreed⟩, hat, hparsing⟩ := Pc.outside_spec hout
  obtain rfl := (hat _ as).mp hq.atPc
  obtain rfl := (hparsing _ current part).mp hp hrun
  have ha := hb.accounted
  obtain ⟨hsignal, -⟩ := hb.set hrun
  refine ⟨(hq.at_rest hheld hunfreed).1, ?_⟩
  have hreads := ha.reads
  rw [beforeSignal_of_not_mem hsignal] at hreads
  rw [ha.all, hreads, List.prefix_nil.mp ha.within]
  simp

/-- What a run of the thread does with the events, when it stands at `s`. -/
structure Serves (s₀ : State) (s : DirThread) (tr : List DirLabel) : Prop where
  /-- the handler gets the events as the kernel wrote them, in order, and none
  twice -/
  inOrder : handledEvents tr <+: (deliveries tr).flatten.map KernelEvent.event
  /-- what they and the other thread did, one after the other, is all that
  happened to the shared state -/
  replayed : s.handler = replay s₀ tr
  /-- the loop tests the counter that the handler has left -/
  counter : (∀ e, s.pc ≠ .fault e) → s.loop.watchedItems = s.handler.watchedItems
  /-- while the flag is set, nothing that was read is left at `event_check` and
  behind the loop -/
  complete : s.loop.keepRunning = true → (∀ e, s.pc ≠ .fault e) →
    s.loop.pc = .eventCheck ∨ s.loop.pc = .returned →
    handledEvents tr = (deliveries tr).flatten.map KernelEvent.event
  /-- a fault is the handler's, or that of the message for the root -/
  faults : (∀ e, s.loop.pc ≠ .fault e) ∧ ∀ e, s.pc = .fault e →
    ∃ pre l post, tr = pre ++ l :: post ∧ l.fault (replay s₀ pre) = some e

/-- **The thread serves the events in order**, in every run, whatever inotify
delivers, whatever the other thread does in the meantime and whenever the
signal comes. -/
theorem pthread_on_dir_run_serves {entries : Entries (List UInt8)} {inputs : List DirInput}
    (h : (DirThread.start entries s₀).run path inputs = some (s, tr)) : Serves s₀ s tr := by
  obtain ⟨hinv, hfaults⟩ := DirInv.run h
  refine ⟨?_, hinv.replay, fun hne => (hinv.running hne).2, fun hrun hne hpc => ?_, ?_, hfaults⟩
  · have henq := hinv.loop.enqueued_prefix.map decode
    rw [hinv.delivered, decode_batches, List.map_map] at henq
    have hsome := hinv.events.trans henq
    rwa [List.prefix_map_iff_of_injective (Option.some_injective _)] at hsome
  · have hout : s.loop.pc.outside = true := by
      rcases hpc with hpc | hpc <;> rw [hpc] <;> rfl
    obtain ⟨hhandled, hall⟩ := hinv.loop.complete hrun hout
    have hdecode := congrArg (List.map decode) hall
    rw [hinv.delivered, decode_batches, List.map_map, ← hhandled] at hdecode
    exact List.map_injective_iff.mpr (Option.some_injective _)
      ((hinv.running hne).1.trans hdecode)
  · intro e he
    obtain ⟨⟨as, waiting, hq⟩, -⟩ := hinv.loop
    have hat := hq.atPc
    rwa [he] at hat

/-! A run in which `/w/x` is created and the signal comes while its block is
freed. -/

/-- The creation as the kernel records it, with the name padded to 16 bytes. -/
def kernelX : KernelEvent where
  wd := 1
  mask := IN_CREATE
  cookie := 0
  name := some fileX
  nameMax := createX.nameMax
  padding := 14

/-- The thread from `inotify_init` to its return. -/
def oneFile : List DirInput :=
  [.opened 3, .created true, .watched 1, .loop .go, .loop .go, .loop (.poll 1 true), .loop .go,
    .read [kernelX], .loop .go, .loop (.malloc 5), .loop .go, .loop .go, .loop .go,
    .handle (fun _ => none) (fun _ => []), .signal, .loop .go, .loop .go, .loop .go, .go, .closed 0,
    .go]

/-- The thread that serves `/w`. -/
def threadW : DirThread := .start (fun _ => none) watchingW

theorem returns_oneFile :
    (threadW.run (lit "/backup") oneFile).map (fun r => r.1.pc) = some .returned := rfl

theorem serves_oneFile :
    ∃ s tr, threadW.run (lit "/backup") oneFile = some (s, tr) ∧ Serves watchingW s tr := by
  obtain ⟨⟨s, tr⟩, h, -⟩ := Option.map_eq_some_iff.mp returns_oneFile
  exact ⟨s, tr, h, pthread_on_dir_run_serves h⟩

/-- What a run of the thread does with its blocks and its descriptor, when it
has returned. -/
structure Balanced (s : DirThread) (tr : List DirLabel) : Prop where
  /-- each block was given back exactly once -/
  blocks : (released tr).Perm (allocated tr)
  /-- the queue is the last one -/
  queueLast : allocated tr ≠ [] → (released tr).getLast? = some .queue
  /-- what was queued was handled -/
  handled : handled (loopTrace tr) = enqueued (loopTrace tr)
  /-- the descriptor was closed once, unless `open_inotify_fd` or a `read` has
  failed -/
  closed : closes tr = [] ∧ (allocated tr = [] ∨ s.loop.rc = HELPERS_INVALID_EXIT) ∨
    (∃ r, closes tr = [r]) ∧ allocated tr ≠ [] ∧ s.loop.rc ≠ HELPERS_INVALID_EXIT

theorem DirInv.balanced (hinv : DirInv s₀ tr s) (hpc : s.pc = .returned) : Balanced s tr := by
  have hplace := hinv.place
  rw [Place, hpc] at hplace
  obtain ⟨hc, hout, hclosed⟩ := hplace
  -- the queue is empty, so all events are handled and freed
  obtain ⟨hhandled, hfreed⟩ : handled (loopTrace tr) = enqueued (loopTrace tr) ∧
      freed (loopTrace tr) = (handled (loopTrace tr)).map Prod.fst := by
    obtain ⟨⟨as, waiting, hq⟩, -⟩ := hinv.loop
    obtain ⟨⟨hheld, hunfreed⟩, hat, -⟩ := Pc.outside_spec hout
    obtain rfl := (hat _ as).mp hq.atPc
    exact hq.at_rest hheld hunfreed
  have hblocks : freedBlocks (loopTrace tr) = entryBlocks (loopTrace tr) := by
    rw [freedBlocks, entryBlocks, hfreed, hhandled, List.map_map]
    rfl
  rcases hinv.ledger with ⟨-, ha, hr, -, -⟩ | ⟨htrue, -⟩ | ⟨-, ha, hr⟩
  · exact ⟨by rw [ha, hr], fun hne => absurd ha hne, hhandled, hclosed⟩
  · rw [hc] at htrue
    cases htrue
  · refine ⟨?_, fun _ => ?_, hhandled, hclosed⟩
    · rw [ha, hr, hblocks]
      exact List.perm_append_singleton _ _
    · rw [hr, List.getLast?_concat]

/-- **The thread gives everything back**, in every run that returns. -/
theorem pthread_on_dir_run_balanced {entries : Entries (List UInt8)} {inputs : List DirInput}
    (h : (DirThread.start entries s₀).run path inputs = some (s, tr)) (hpc : s.pc = .returned) :
    Balanced s tr := by
  obtain ⟨hinv, -⟩ := DirInv.run h
  exact hinv.balanced hpc

theorem balanced_oneFile :
    ∃ s tr, threadW.run (lit "/backup") oneFile = some (s, tr) ∧ Balanced s tr := by
  obtain ⟨⟨s, tr⟩, h, hpc⟩ := Option.map_eq_some_iff.mp returns_oneFile
  exact ⟨s, tr, h, pthread_on_dir_run_balanced h hpc⟩

end SecuritySystem.Backup
