/-
SecuritySystem/Backup/EventLoopSafety.lean

What the event loop does with the events it reads.

The invariant of the machine has two sides.  `QueueSide` is about the queue:
what was put in is what was handled, and then what still waits, and each
handled event but the last one has been freed.  `BatchSide` is about the
batches: what was put in are the records of the batches that were parsed
completely before the flag was cleared, and then a prefix of the records of
the batch that was being parsed.

Most steps only move the program counter; `QueueSide.move` and
`BatchSide.move` say so once.
-/
import SecuritySystem.Backup.EventLoop
import SecuritySystem.EventQueueSafety

namespace SecuritySystem.Backup

open CMem

variable {s s' : LoopState} {tr ls : List Label} {l : List Addr}
variable {waiting : List (Addr × List UInt8)}

/-! ### Records in a buffer -/

namespace InotifyRecord

theorem length_encode (r : InotifyRecord) : r.encode.length = offsetofName + r.name.length := by
  simp only [encode, offsetofName, List.length_append, length_leBytes]

theorem encode_ne_nil (r : InotifyRecord) : r.encode ≠ [] := by
  intro h
  have hlen := r.length_encode
  rw [h, offsetofName, List.length_nil] at hlen
  omega

end InotifyRecord

@[simp] theorem encodeAll_append (rs rs' : List InotifyRecord) :
    encodeAll (rs ++ rs') = encodeAll rs ++ encodeAll rs' := List.flatMap_append

@[simp] theorem encodeAll_cons (r : InotifyRecord) (rs : List InotifyRecord) :
    encodeAll (r :: rs) = r.encode ++ encodeAll rs := List.flatMap_cons

@[simp] theorem encodeAll_nil : encodeAll [] = [] := rfl

/-- The size of a record is read from its header. -/
theorem eventSize_encode (before : List UInt8) (r : InotifyRecord) (behind : List UInt8) :
    LoopState.eventSize (before ++ (r.encode ++ behind)) before.length = .ok r.encode.length := by
  set header := leBytes 4 r.wd.toNat ++ leBytes 4 r.mask.toNat ++ leBytes 4 r.cookie.toNat
    with hheader
  have hlen : header.length = 12 := by simp [hheader]
  have hread := readAt_append (before ++ header) (leBytes 4 r.name.length) (r.name ++ behind)
  rw [List.length_append, hlen, length_leBytes] at hread
  have hbuffer : before ++ (r.encode ++ behind) =
      before ++ header ++ (leBytes 4 r.name.length ++ (r.name ++ behind)) := by
    simp [InotifyRecord.encode, hheader]
  rw [hbuffer, LoopState.eventSize, hread]
  show Except.ok (offsetofName + ofLe (leBytes 4 r.name.length)) = _
  rw [ofLe_leBytes (by exact r.len), r.length_encode]

/-! ### The trace -/

@[simp] theorem batches_append : batches (tr ++ ls) = batches tr ++ batches ls :=
  List.filterMap_append

@[simp] theorem enqueued_append : enqueued (tr ++ ls) = enqueued tr ++ enqueued ls :=
  List.filterMap_append

@[simp] theorem handled_append : handled (tr ++ ls) = handled tr ++ handled ls :=
  List.filterMap_append

@[simp] theorem freed_append : freed (tr ++ ls) = freed tr ++ freed ls := List.filterMap_append

theorem Label.isSignal_iff {x : Label} : x.isSignal = true ↔ x = .signal := by
  cases x <;> simp [isSignal]

theorem beforeSignal_of_not_mem (h : Label.signal ∉ tr) : beforeSignal tr = tr := by
  rw [beforeSignal, List.takeWhile_eq_self_iff]
  intro x hx
  rw [Bool.not_eq_true', Bool.eq_false_iff]
  intro hs
  rw [Label.isSignal_iff] at hs
  exact h (hs ▸ hx)

theorem beforeSignal_append_of_mem (h : Label.signal ∈ tr) :
    beforeSignal (tr ++ ls) = beforeSignal tr := by
  have hne : beforeSignal tr ≠ tr := by
    intro he
    rw [beforeSignal, List.takeWhile_eq_self_iff] at he
    exact absurd (he _ h) (by simp [Label.isSignal])
  rw [beforeSignal, List.takeWhile_append, if_neg]
  · rfl
  · intro hlen
    exact hne ((List.takeWhile_prefix _).eq_of_length hlen)

theorem beforeSignal_append_signal (h : Label.signal ∉ tr) :
    beforeSignal (tr ++ [.signal]) = tr := by
  have hself := beforeSignal_of_not_mem h
  rw [beforeSignal, List.takeWhile_append, if_pos (by rw [← beforeSignal, hself])]
  simp [Label.isSignal]

/-! ### The queue side -/

/-- Taken out of the queue, but not handled yet. -/
def Pc.held : Pc → List Addr
  | .handle (some a) => [a]
  | _ => []

/-- Handled, but not freed yet. -/
def Pc.unfreed : Pc → List Addr
  | .free a => [a]
  | _ => []

/-- What is known of the queue `q`, which holds `l`, at a place of the
program. -/
def AtPc (q : Queue (List UInt8)) (l : List Addr) : Pc → Prop
  | .whileWatched | .eventCheck | .poll | .checked _ | .read | .returned => l = []
  | .parse _ _ count | .parseEvent _ _ count => 0 ≤ count
  | .drain => True
  | .dequeue => l ≠ []
  | .handle event => ∃ a, event = some a ∧ a ∉ l
  | .free a => a ∉ l ∧ ∃ e, q.entries a = some e
  | .fault _ => False

/-- The queue holds `l`, and `waiting` is what was put in and not handled
yet. -/
structure QueueSide (tr : List Label) (s : LoopState) (l : List Addr)
    (waiting : List (Addr × List UInt8)) : Prop where
  holds : Holds s.queue l
  enqueued : enqueued tr = handled tr ++ waiting
  addrs : waiting.map Prod.fst = s.pc.held ++ l
  events : ∀ w ∈ waiting, s.queue.eventOf w.1 = some w.2
  freed : (handled tr).map Prod.fst = freed tr ++ s.pc.unfreed
  atPc : AtPc s.queue l s.pc

namespace QueueSide

/-- Steps that leave the queue and its events alone. -/
theorem move (h : QueueSide tr s l waiting) (hq : s'.queue = s.queue)
    (hheld : s'.pc.held = s.pc.held) (hunfreed : s'.pc.unfreed = s.pc.unfreed)
    (hpc : AtPc s.queue l s'.pc) (he : Backup.enqueued ls = []) (hh : Backup.handled ls = [])
    (hf : Backup.freed ls = []) : QueueSide (tr ++ ls) s' l waiting where
  holds := by rw [hq]; exact h.holds
  enqueued := by rw [enqueued_append, handled_append, he, hh, List.append_nil, List.append_nil,
    h.enqueued]
  addrs := by rw [hheld]; exact h.addrs
  events := by rw [hq]; exact h.events
  freed := by rw [handled_append, freed_append, hh, hf, List.append_nil, List.append_nil, hunfreed,
    h.freed]
  atPc := by rw [hq]; exact hpc

/-- At rest, everything that was put in has been handled and freed. -/
theorem at_rest (h : QueueSide tr s [] waiting) (hheld : s.pc.held = [])
    (hunfreed : s.pc.unfreed = []) :
    Backup.handled tr = Backup.enqueued tr ∧
      Backup.freed tr = (Backup.handled tr).map Prod.fst := by
  have hw : waiting = [] := by
    have haddrs := h.addrs
    rw [hheld, List.append_nil, List.map_eq_nil_iff] at haddrs
    exact haddrs
  refine ⟨?_, ?_⟩
  · rw [h.enqueued, hw, List.append_nil]
  · rw [h.freed, hunfreed, List.append_nil]

/-- The body of the parse loop puts one more event in. -/
theorem queued (h : QueueSide tr s l waiting) {buffer : List UInt8} {i : ℕ} {count : ℤ}
    (hpc : s.pc = .parseEvent buffer i count) {a : Addr} (ha : s.queue.entries a = none)
    {size : ℕ} {bytes : List UInt8} (hsize : LoopState.eventSize buffer i = .ok size)
    (hbytes : readAt buffer i size = .ok bytes) :
    ∃ s', s.queueEvent buffer i count a = .ok (s', [.enqueue a bytes]) ∧
      s'.pc = .parse buffer (i + size) (count + 1) ∧ s'.keepRunning = s.keepRunning ∧
      QueueSide (tr ++ [.enqueue a bytes]) s' (l ++ [a]) (waiting ++ [(a, bytes)]) := by
  -- a block that is in use is not handed out again
  have hal : a ∉ l := by
    intro hmem
    obtain ⟨e, he⟩ := h.holds.live a hmem
    rw [ha] at he
    cases he
  have hheld : s.pc.held = [] := by rw [hpc]; rfl
  have hunfreed : s.pc.unfreed = [] := by rw [hpc]; rfl
  have haddrs : waiting.map Prod.fst = l := by rw [h.addrs, hheld, List.nil_append]
  have hwrite := h.holds.write hal (some ⟨none, bytes⟩)
  obtain ⟨q, hq, hholds, hev⟩ := hwrite.enqueue hal (Function.update_self ..)
  refine ⟨{ s with queue := q, pc := .parse buffer (i + size) (count + 1) }, ?_, rfl, rfl, ?_⟩
  · simp only [LoopState.queueEvent, hsize, hbytes, hq, bind, Except.bind]
  · refine ⟨hholds, ?_, ?_, ?_, ?_, ?_⟩
    · rw [enqueued_append, handled_append, h.enqueued, List.append_assoc]
      show _ = Backup.handled tr ++ [] ++ _
      rw [List.append_nil]
      rfl
    · show (waiting ++ [(a, bytes)]).map Prod.fst = [] ++ (l ++ [a])
      rw [List.map_append, haddrs]
      rfl
    · intro w hw
      show q.eventOf w.1 = some w.2
      rw [hev]
      rcases List.mem_append.mp hw with hw | hw
      · have hwl : w.1 ∈ l := haddrs ▸ List.mem_map_of_mem hw
        have hne : w.1 ≠ a := fun he => hal (he ▸ hwl)
        rw [Queue.eventOf, Queue.setEntry_entries, Function.update_of_ne hne]
        exact h.events w hw
      · obtain rfl := List.mem_singleton.mp hw
        simp [Queue.eventOf]
    · have hfreed := h.freed
      rw [hunfreed] at hfreed
      rw [handled_append, freed_append]
      show (Backup.handled tr ++ []).map Prod.fst = Backup.freed tr ++ [] ++ []
      rw [List.append_nil, List.append_nil, hfreed]
    · have hcount := h.atPc
      rw [hpc] at hcount
      exact Int.add_nonneg hcount Int.one_nonneg

/-- `queue_dequeue` delivers the first waiting event. -/
theorem dequeued (h : QueueSide tr s l waiting) (hpc : s.pc = .dequeue) :
    ∃ s' l', s.dequeueStep = .ok (s', []) ∧ s'.keepRunning = s.keepRunning ∧
      (∃ event, s'.pc = .handle event) ∧ QueueSide tr s' l' waiting := by
  have hne := h.atPc
  rw [hpc] at hne
  obtain ⟨a, l', rfl⟩ := List.exists_cons_of_ne_nil hne
  have hal : a ∉ l' := (List.nodup_cons.mp h.holds.nodup).1
  obtain ⟨e, he⟩ := h.holds.live a List.mem_cons_self
  obtain ⟨q, hq, hholds, hentries⟩ := h.holds.dequeue he
  refine ⟨{ s with queue := q, pc := .handle (some a) }, l', ?_, rfl, ⟨_, rfl⟩, ?_⟩
  · simp only [LoopState.dequeueStep, hq, bind, Except.bind]
  · refine ⟨hholds, h.enqueued, ?_, ?_, ?_, ⟨a, rfl, hal⟩⟩
    · rw [h.addrs, hpc]
      rfl
    · intro w hw
      have hevent := h.events w hw
      show q.eventOf w.1 = some w.2
      rw [Queue.eventOf, hentries]
      by_cases hwa : w.1 = a
      · rw [hwa, Queue.eventOf, he] at hevent
        rw [hwa, Function.update_self]
        exact hevent
      · rw [Function.update_of_ne hwa]
        exact hevent
    · rw [h.freed, hpc]
      rfl

/-- The call of `handle_event` gets the first waiting event. -/
theorem handed (h : QueueSide tr s l waiting) {event : Option Addr}
    (hpc : s.pc = .handle event) (w : UInt64) :
    ∃ a bytes s' waiting', s.handleStep event w = .ok (s', [.handle a bytes]) ∧
      s'.keepRunning = s.keepRunning ∧ s'.pc = .free a ∧
      QueueSide (tr ++ [.handle a bytes]) s' l waiting' := by
  have hat := h.atPc
  rw [hpc] at hat
  obtain ⟨a, rfl, hal⟩ := hat
  have haddrs := h.addrs
  rw [hpc] at haddrs
  obtain ⟨⟨b, bytes⟩, waiting', rfl, hba, hrest⟩ := List.map_eq_cons_iff.mp haddrs
  obtain rfl : b = a := hba
  obtain ⟨e, he, hbytes⟩ := Option.map_eq_some_iff.mp (h.events (b, bytes) List.mem_cons_self)
  refine ⟨b, bytes, { s with watchedItems := w, pc := .free b }, waiting', ?_, rfl, rfl, ?_⟩
  · simp only [LoopState.handleStep, Queue.deref_of_some he, bind, Except.bind, hbytes]
  · refine ⟨h.holds, ?_, hrest, ?_, ?_, hal, e, he⟩
    · rw [enqueued_append, handled_append, h.enqueued]
      show Backup.handled tr ++ (b, bytes) :: waiting' ++ [] = _ ++ [(b, bytes)] ++ _
      rw [List.append_nil, List.append_assoc]
      rfl
    · exact fun w hw => h.events w (List.mem_cons_of_mem _ hw)
    · have hfreed := h.freed
      rw [hpc] at hfreed
      rw [handled_append, freed_append, List.map_append, hfreed]
      show Backup.freed tr ++ [] ++ [b] = Backup.freed tr ++ [] ++ [b]
      rfl

/-- The event just handled is freed. -/
theorem released (h : QueueSide tr s l waiting) {a : Addr} (hpc : s.pc = .free a) :
    ∃ s', s.freeStep a = .ok (s', [.free a]) ∧ s'.keepRunning = s.keepRunning ∧
      s'.pc = .drain ∧ QueueSide (tr ++ [.free a]) s' l waiting := by
  have hat := h.atPc
  rw [hpc] at hat
  obtain ⟨hal, e, he⟩ := hat
  have haddrs := h.addrs
  rw [hpc] at haddrs
  refine ⟨{ s with queue := s.queue.setEntry a none, pc := .drain }, ?_, rfl, rfl, ?_⟩
  · simp only [LoopState.freeStep, Queue.free, he, bind, Except.bind]
  · refine ⟨h.holds.write hal none, ?_, haddrs, ?_, ?_, trivial⟩
    · rw [enqueued_append, handled_append, h.enqueued]
      show Backup.handled tr ++ waiting ++ [] = Backup.handled tr ++ [] ++ waiting
      rw [List.append_nil, List.append_nil]
    · intro w hw
      have hwl : w.1 ∈ l := by
        have hmem := List.mem_map_of_mem (f := Prod.fst) hw
        rwa [haddrs] at hmem
      have hne : w.1 ≠ a := fun he => hal (he ▸ hwl)
      show (s.queue.setEntry a none).eventOf w.1 = some w.2
      rw [Queue.eventOf, Queue.setEntry_entries, Function.update_of_ne hne]
      exact h.events w hw
    · have hfreed := h.freed
      rw [hpc] at hfreed
      rw [handled_append, freed_append]
      show (Backup.handled tr ++ []).map Prod.fst = Backup.freed tr ++ [a] ++ []
      rw [List.append_nil, List.append_nil, hfreed]
      rfl

end QueueSide

/-! ### The batch side -/

/-- `events` are the records of `completed`, the batches all of whose records
were put in the queue before the flag was cleared, and then the first records
`part` of `current`, the batch that was being parsed; of these, `parsed` were
put in before the flag was cleared.  No other batch was read before. -/
structure Accounted (tr : List Label) (events : List (List UInt8))
    (completed : List (List InotifyRecord)) (current : Option (List InotifyRecord))
    (parsed part : List InotifyRecord) : Prop where
  reads : batches (beforeSignal tr) = completed ++ current.toList
  before : (enqueued (beforeSignal tr)).map Prod.snd =
    (completed.flatten ++ parsed).map InotifyRecord.encode
  incomplete : current ≠ some parsed
  grown : parsed <+: part
  within : part <+: current.getD []
  all : events = (completed.flatten ++ part).map InotifyRecord.encode

/-- The events put in the queue are accounted for, and while the flag is set
none is ahead of the account. -/
structure BatchSide (tr : List Label) (running : Bool) (completed : List (List InotifyRecord))
    (current : Option (List InotifyRecord)) (parsed part : List InotifyRecord) : Prop where
  accounted : Accounted tr ((enqueued tr).map Prod.snd) completed current parsed part
  set : running = true → Label.signal ∉ tr ∧ parsed = part
  cleared : running = false → Label.signal ∈ tr

variable {running : Bool} {completed : List (List InotifyRecord)}
variable {current : Option (List InotifyRecord)} {parsed part : List InotifyRecord}

namespace BatchSide

/-- Steps that neither read nor put in, nor clear the flag. -/
theorem move (h : BatchSide tr running completed current parsed part)
    (hb : Backup.batches ls = []) (he : Backup.enqueued ls = []) (hs : Label.signal ∉ ls) :
    BatchSide (tr ++ ls) running completed current parsed part := by
  have hevents : Backup.enqueued (tr ++ ls) = Backup.enqueued tr := by
    rw [enqueued_append, he, List.append_nil]
  by_cases hmem : Label.signal ∈ tr
  · refine ⟨?_, ?_, fun _ => List.mem_append_left _ hmem⟩
    · have ha := h.accounted
      exact ⟨by rw [beforeSignal_append_of_mem hmem]; exact ha.reads,
        by rw [beforeSignal_append_of_mem hmem]; exact ha.before,
        ha.incomplete, ha.grown, ha.within, by rw [hevents]; exact ha.all⟩
    · exact fun hr => absurd hmem (h.set hr).1
  · have hnot : Label.signal ∉ tr ++ ls := by simp [hmem, hs]
    have ha := h.accounted
    refine ⟨⟨?_, ?_, ha.incomplete, ha.grown, ha.within, ?_⟩, fun hr => ⟨hnot, (h.set hr).2⟩, ?_⟩
    · rw [beforeSignal_of_not_mem hnot, batches_append, hb, List.append_nil,
        ← ha.reads, beforeSignal_of_not_mem hmem]
    · rw [beforeSignal_of_not_mem hnot, hevents, ← ha.before, beforeSignal_of_not_mem hmem]
    · rw [hevents]
      exact ha.all
    · exact fun hr => absurd (h.cleared hr) hmem

/-- The signal freezes the account. -/
theorem signal (h : BatchSide tr running completed current parsed part) :
    BatchSide (tr ++ [.signal]) false completed current parsed part := by
  have hevents : Backup.enqueued (tr ++ [.signal]) = Backup.enqueued tr := by
    rw [enqueued_append]
    exact List.append_nil _
  have hbefore : beforeSignal (tr ++ [.signal]) = beforeSignal tr := by
    by_cases hmem : Label.signal ∈ tr
    · exact beforeSignal_append_of_mem hmem
    · rw [beforeSignal_append_signal hmem, beforeSignal_of_not_mem hmem]
  have ha := h.accounted
  refine ⟨⟨?_, ?_, ha.incomplete, ha.grown, ha.within, ?_⟩, ?_, ?_⟩
  · rw [hbefore]
    exact ha.reads
  · rw [hbefore]
    exact ha.before
  · rw [hevents]
    exact ha.all
  · exact fun hr => absurd hr (by simp)
  · exact fun _ => by simp

/-- A batch is read when no other one is being parsed.  While the flag is set
it becomes the current one; after that it does not count. -/
theorem read (h : BatchSide tr running completed current parsed part)
    (hcur : running = true → current = none) {records : List InotifyRecord}
    (hne : records ≠ []) :
    ∃ current' parsed' part', (running = true → current' = some records ∧ part' = []) ∧
      BatchSide (tr ++ [.read records]) running completed current' parsed' part' := by
  have hevents : Backup.enqueued (tr ++ [.read records]) = Backup.enqueued tr := by
    rw [enqueued_append]
    exact List.append_nil _
  have ha := h.accounted
  cases running with
  | false =>
    have hmem := h.cleared rfl
    refine ⟨current, parsed, part, by simp, ⟨⟨?_, ?_, ha.incomplete, ha.grown, ha.within, ?_⟩,
      by simp, fun _ => List.mem_append_left _ hmem⟩⟩
    · rw [beforeSignal_append_of_mem hmem]
      exact ha.reads
    · rw [beforeSignal_append_of_mem hmem]
      exact ha.before
    · rw [hevents]
      exact ha.all
  | true =>
    obtain ⟨hmem, rfl⟩ := h.set rfl
    obtain rfl := hcur rfl
    have hpart : parsed = [] := List.prefix_nil.mp ha.within
    subst hpart
    have hnot : Label.signal ∉ tr ++ [.read records] := by simp [hmem]
    refine ⟨some records, [], [], fun _ => ⟨rfl, rfl⟩, ⟨⟨?_, ?_, ?_, ?_, ?_, ?_⟩, ?_, by simp⟩⟩
    · have hb := ha.reads
      rw [beforeSignal_of_not_mem hmem] at hb
      rw [beforeSignal_of_not_mem hnot, batches_append, hb]
      show completed ++ [] ++ [records] = _
      rw [List.append_nil]
      rfl
    · rw [beforeSignal_of_not_mem hnot, hevents, ← ha.before, beforeSignal_of_not_mem hmem]
    · simpa using hne
    · exact List.prefix_rfl
    · exact List.nil_prefix
    · rw [hevents]
      exact ha.all
    · exact fun _ => ⟨hnot, rfl⟩

end BatchSide

/-- The parse loop stands in the batch `current`, behind the records `part`. -/
def Ahead (current : Option (List InotifyRecord)) (part : List InotifyRecord)
    (buffer : List UInt8) (i : ℕ) : Prop :=
  ∃ r rest, current = some (part ++ r :: rest) ∧ buffer = encodeAll (part ++ r :: rest) ∧
    i = (encodeAll part).length

/-- What is known of the current batch at a place of the program. -/
def Parsing (running : Bool) (current : Option (List InotifyRecord)) (part : List InotifyRecord) :
    Pc → Prop
  | .parse buffer i _ =>
    running = true → (current = none ∧ buffer.length ≤ i) ∨ Ahead current part buffer i
  | .parseEvent buffer i _ => Ahead current part buffer i
  | _ => running = true → current = none

/-- The body of the parse loop reads the next record of the batch. -/
theorem BatchSide.queued (h : BatchSide tr running completed current parsed part)
    {buffer : List UInt8} {i : ℕ} (hahead : Ahead current part buffer i) (a : Addr) :
    ∃ size bytes, LoopState.eventSize buffer i = .ok size ∧ readAt buffer i size = .ok bytes ∧
      ∃ completed' current' parsed' part',
        BatchSide (tr ++ [.enqueue a bytes]) running completed' current' parsed' part' ∧
        (running = true →
          (current' = none ∧ buffer.length ≤ i + size) ∨
            Ahead current' part' buffer (i + size)) := by
  obtain ⟨r, rest, rfl, rfl, rfl⟩ := hahead
  have hbuffer : encodeAll (part ++ r :: rest) =
      encodeAll part ++ (r.encode ++ encodeAll rest) := by simp
  refine ⟨r.encode.length, r.encode, by rw [hbuffer]; exact eventSize_encode .., ?_, ?_⟩
  · rw [hbuffer]
    exact readAt_append ..
  have ha := h.accounted
  have hall : (enqueued (tr ++ [.enqueue a r.encode])).map Prod.snd =
      (completed.flatten ++ (part ++ [r])).map InotifyRecord.encode := by
    rw [enqueued_append, List.map_append, ha.all, ← List.append_assoc]
    show _ ++ [r].map InotifyRecord.encode = _
    exact List.map_append.symm
  cases running with
  | false =>
    -- the account of what came before the signal stands; the prefix grows
    have hmem := h.cleared rfl
    refine ⟨completed, _, parsed, part ++ [r], ⟨⟨?_, ?_, ha.incomplete, ?_, ?_, hall⟩, by simp,
      fun _ => List.mem_append_left _ hmem⟩, by simp⟩
    · rw [beforeSignal_append_of_mem hmem]
      exact ha.reads
    · rw [beforeSignal_append_of_mem hmem]
      exact ha.before
    · exact ha.grown.trans (List.prefix_append _ _)
    · exact ⟨rest, by simp⟩
  | true =>
    obtain ⟨hmem, rfl⟩ := h.set rfl
    have hnot : Label.signal ∉ tr ++ [.enqueue a r.encode] := by simp [hmem]
    have hself := beforeSignal_of_not_mem hnot
    have hreads : batches (beforeSignal (tr ++ [.enqueue a r.encode])) =
        completed ++ [parsed ++ r :: rest] := by
      have hr := ha.reads
      rw [beforeSignal_of_not_mem hmem] at hr
      rw [hself, batches_append, hr]
      exact List.append_nil _
    cases rest with
    | nil =>
      -- the last record: the batch is complete
      have hflat : completed.flatten ++ (parsed ++ [r]) =
          (completed ++ [parsed ++ [r]]).flatten ++ [] := by simp
      refine ⟨completed ++ [parsed ++ [r]], none, [], [], ⟨⟨?_, ?_, by simp, List.prefix_rfl,
        List.prefix_rfl, by rw [hall, hflat]⟩, fun _ => ⟨hnot, rfl⟩, by simp⟩,
        fun _ => .inl ⟨rfl, ?_⟩⟩
      · rw [hreads]
        exact (List.append_nil _).symm
      · rw [hself, hall, hflat]
      · rw [hbuffer]
        simp
    | cons r' rest =>
      refine ⟨completed, some (parsed ++ r :: r' :: rest), parsed ++ [r], parsed ++ [r],
        ⟨⟨hreads, by rw [hself, hall], ?_, List.prefix_rfl, ?_, hall⟩, fun _ => ⟨hnot, rfl⟩,
          by simp⟩, fun _ => .inr ⟨r', rest, ?_, ?_, ?_⟩⟩
      · simp
      · exact ⟨r' :: rest, by simp⟩
      · simp
      · simp
      · simp

/-! ### The invariant -/

/-- Both sides of the invariant. -/
def Invariant (tr : List Label) (s : LoopState) : Prop :=
  (∃ l waiting, QueueSide tr s l waiting) ∧
  ∃ completed current parsed part,
    BatchSide tr s.keepRunning completed current parsed part ∧
    Parsing s.keepRunning current part s.pc

theorem invariant_start (w : UInt64) (entries : Entries (List UInt8)) :
    Invariant [] (LoopState.start w entries) := by
  have hempty : Holds (LoopState.start w entries).queue [] := queueCreate_holds rfl
  refine ⟨⟨[], [], hempty, rfl, rfl, by simp, rfl, rfl⟩, [], none, [], [],
    ⟨⟨rfl, rfl, by simp, List.prefix_rfl, List.prefix_rfl, rfl⟩, ?_, ?_⟩, fun _ => rfl⟩
  · exact fun _ => ⟨List.not_mem_nil, rfl⟩
  · exact fun h => absurd h (by simp [LoopState.start])

/-- Steps that only move the program counter, between places where no event is
out of the queue. -/
theorem Invariant.move (h : Invariant tr s) {pc : Pc} (rc : ℤ)
    (hout : s.pc.held = [] ∧ s.pc.unfreed = []) (hout' : pc.held = [] ∧ pc.unfreed = [])
    (hat : ∀ l, Holds s.queue l → AtPc s.queue l s.pc → AtPc s.queue l pc)
    (hparsing : ∀ current part, Parsing s.keepRunning current part s.pc →
      Parsing s.keepRunning current part pc) :
    Invariant (tr ++ []) { s with rc := rc, pc := pc } := by
  obtain ⟨⟨l, waiting, hq⟩, completed, current, parsed, part, hb, hp⟩ := h
  refine ⟨⟨l, waiting, hq.move rfl ?_ ?_ (hat l hq.holds hq.atPc) rfl rfl rfl⟩,
    completed, current, parsed, part, hb.move rfl rfl (by simp), hparsing current part hp⟩
  · exact hout'.1.trans hout.1.symm
  · exact hout'.2.trans hout.2.symm

/-- The places outside `read_events` and `process_handle_events`. -/
def Pc.outside : Pc → Bool
  | .whileWatched | .eventCheck | .poll | .checked _ | .read | .returned => true
  | _ => false

/-- Outside, the queue is empty, everything is handled and freed, and while the
flag is set no batch is being parsed. -/
theorem Pc.outside_spec {pc : Pc} (h : pc.outside = true) :
    (pc.held = [] ∧ pc.unfreed = []) ∧
    (∀ q l, AtPc q l pc ↔ l = []) ∧
    ∀ running current part,
      Parsing running current part pc ↔ (running = true → current = none) := by
  cases pc with
  | whileWatched | eventCheck | poll | checked | read | returned =>
    exact ⟨⟨rfl, rfl⟩, fun _ _ => Iff.rfl, fun _ _ _ => Iff.rfl⟩
  | _ => cases h

/-- Steps outside. -/
theorem Invariant.moveOutside (h : Invariant tr s) {pc : Pc} (rc : ℤ)
    (hpc : s.pc.outside = true) (hpc' : pc.outside = true) :
    Invariant (tr ++ []) { s with rc := rc, pc := pc } := by
  obtain ⟨hout, hat, hparsing⟩ := Pc.outside_spec hpc
  obtain ⟨hout', hat', hparsing'⟩ := Pc.outside_spec hpc'
  refine h.move rc hout hout' (fun l _ hl => ?_) (fun current part hp => ?_)
  · exact (hat' _ l).mpr ((hat _ l).mp hl)
  · exact (hparsing' _ current part).mpr ((hparsing _ current part).mp hp)

theorem Invariant.signal (h : Invariant tr s) :
    Invariant (tr ++ [.signal]) { s with keepRunning := false } := by
  obtain ⟨⟨l, waiting, hq⟩, completed, current, parsed, part, hb, hp⟩ := h
  refine ⟨⟨l, waiting, hq.move rfl rfl rfl hq.atPc rfl rfl rfl⟩,
    completed, current, parsed, part, hb.signal, ?_⟩
  show Parsing false current part s.pc
  cases hpc : s.pc with
  | parseEvent buffer i count =>
    rw [hpc] at hp
    exact hp
  | _ => exact fun hr => absurd hr (by simp)

theorem Invariant.read (h : Invariant tr s) (hpc : s.pc = .read) {records : List InotifyRecord}
    (hne : records ≠ []) :
    Invariant (tr ++ [.read records]) (s.goto (.parse (encodeAll records) 0 0)) := by
  obtain ⟨⟨l, waiting, hq⟩, completed, current, parsed, part, hb, hp⟩ := h
  rw [hpc] at hp
  obtain ⟨current', parsed', part', hcur, hb'⟩ := hb.read hp hne
  refine ⟨⟨l, waiting, hq.move rfl ?_ ?_ ?_ rfl rfl rfl⟩,
    completed, current', parsed', part', hb', fun hr => .inr ?_⟩
  · rw [hpc]
    rfl
  · rw [hpc]
    rfl
  · exact Int.le_refl 0
  · obtain ⟨rfl, rfl⟩ := hcur hr
    obtain ⟨r, rest, rfl⟩ := List.exists_cons_of_ne_nil hne
    exact ⟨r, rest, rfl, rfl, rfl⟩

theorem Invariant.queueEvent (h : Invariant tr s) {buffer : List UInt8} {i : ℕ} {count : ℤ}
    (hpc : s.pc = .parseEvent buffer i count) {a : Addr} (ha : s.queue.entries a = none) :
    ∃ s' ls, s.queueEvent buffer i count a = .ok (s', ls) ∧ Invariant (tr ++ ls) s' := by
  obtain ⟨⟨l, waiting, hq⟩, completed, current, parsed, part, hb, hp⟩ := h
  rw [hpc] at hp
  obtain ⟨size, bytes, hsize, hbytes, completed', current', parsed', part', hb', hahead⟩ :=
    hb.queued hp a
  obtain ⟨s', hs', hpc', hrunning, hq'⟩ := hq.queued hpc ha hsize hbytes
  refine ⟨s', _, hs', ⟨_, _, hq'⟩, completed', current', parsed', part', ?_, ?_⟩
  · rw [hrunning]
    exact hb'
  · rw [hrunning, hpc']
    exact hahead

/-- A batch that is not parsed to its end has bytes left. -/
theorem Ahead.lt {buffer : List UInt8} {i : ℕ} (h : Ahead current part buffer i) :
    i < buffer.length := by
  obtain ⟨r, rest, -, rfl, rfl⟩ := h
  have hr := List.length_pos_of_ne_nil r.encode_ne_nil
  simp only [encodeAll_append, encodeAll_cons, List.length_append]
  omega

/-- The test of the parse loop. -/
theorem Invariant.parse (h : Invariant tr s) {buffer : List UInt8} {i : ℕ} {count : ℤ}
    (hpc : s.pc = .parse buffer i count) :
    if i < buffer.length && s.keepRunning then
      Invariant (tr ++ []) (s.goto (.parseEvent buffer i count))
    else Invariant (tr ++ [])
      { s with rc := count, pc := if count < 0 then .returned else .drain } := by
  have hout : s.pc.held = [] ∧ s.pc.unfreed = [] := by rw [hpc]; exact ⟨rfl, rfl⟩
  split
  · next htest =>
    rw [Bool.and_eq_true, decide_eq_true_iff] at htest
    refine h.move s.rc hout ⟨rfl, rfl⟩ (fun l _ hat => ?_) (fun current part hp => ?_)
    · rw [hpc] at hat
      exact hat
    · rw [hpc] at hp
      rcases hp htest.2 with ⟨-, hle⟩ | hahead
      · exact absurd htest.1 (Nat.not_lt.mpr hle)
      · exact hahead
  · next htest =>
    rw [Bool.and_eq_true, decide_eq_true_iff] at htest
    have hcount : 0 ≤ count := by
      obtain ⟨⟨l, waiting, hq⟩, -⟩ := h
      have hat := hq.atPc
      rwa [hpc] at hat
    rw [if_neg (Int.not_lt.mpr hcount)]
    refine h.move count hout ⟨rfl, rfl⟩ (fun _ _ _ => trivial) (fun current part hp hr => ?_)
    rw [hpc] at hp
    rcases hp hr with ⟨hnone, -⟩ | hahead
    · exact hnone
    · exact absurd ⟨hahead.lt, hr⟩ htest

/-- The three steps of the drain loop that work on an event. -/
theorem Invariant.drainStep (h : Invariant tr s) {r : Except Fault (LoopState × List Label)}
    (hr : s.orFault r = (s', ls))
    (hside : ∀ l waiting, QueueSide tr s l waiting → ∃ t out, r = .ok (t, out) ∧
      t.keepRunning = s.keepRunning ∧
      (batches out = [] ∧ enqueued out = [] ∧ Label.signal ∉ out) ∧
      (∀ current part, Parsing s.keepRunning current part s.pc →
        Parsing s.keepRunning current part t.pc) ∧
      ∃ l' waiting', QueueSide (tr ++ out) t l' waiting') :
    Invariant (tr ++ ls) s' := by
  obtain ⟨⟨l, waiting, hq⟩, completed, current, parsed, part, hb, hp⟩ := h
  obtain ⟨t, out, rfl, hrunning, ⟨hread, hqueued, hsignal⟩, hparsing, hside'⟩ :=
    hside l waiting hq
  cases hr
  refine ⟨hside', completed, current, parsed, part, ?_, ?_⟩
  · rw [hrunning]
    exact hb.move hread hqueued hsignal
  · rw [hrunning]
    exact hparsing current part hp

/-- Each step keeps the invariant. -/
theorem Invariant.step (h : Invariant tr s) {input : Input}
    (hs : s.step input = some (s', ls)) : Invariant (tr ++ ls) s' := by
  unfold LoopState.step at hs
  split at hs
  · -- the signal
    cases hs
    exact h.signal
  · next hpc =>
    -- the test of `process_inotify_events`
    cases hs
    exact h.moveOutside s.rc (by rw [hpc]; rfl) (by split <;> rfl)
  · next hpc =>
    -- the test of `event_check`
    cases hs
    exact h.moveOutside s.rc (by rw [hpc]; rfl) (by split <;> rfl)
  · next ret pollin hpc =>
    cases hs
    refine h.moveOutside s.rc (by rw [hpc]; rfl) ?_
    -- whatever `poll` returns, the program goes on in `event_check` or leaves it
    unfold LoopState.polled
    split_ifs <;> rfl
  · next ret hpc =>
    cases hs
    exact h.moveOutside s.rc (by rw [hpc]; rfl) (by split <;> rfl)
  · next hpc =>
    -- `read` has failed
    cases hs
    exact h.moveOutside _ (by rw [hpc]; rfl) rfl
  · next records hpc =>
    -- a new batch, with its cursor at the front
    split at hs
    · next hok =>
      cases hs
      exact h.read hpc hok.1
    · cases hs
  · next buffer i count hpc =>
    -- the test of the loop over the records; when it fails, the batch is complete or cut off
    have hparse := h.parse hpc
    split at hs
    · next htest =>
      cases hs
      rwa [if_pos htest] at hparse
    · next htest =>
      cases hs
      rwa [if_neg htest] at hparse
  · next event buffer i count hpc =>
    -- one record more is in the queue
    split at hs
    · next hfresh =>
      obtain ⟨t, out, he, hinv⟩ := h.queueEvent hpc hfresh
      rw [he] at hs
      cases hs
      exact hinv
    · cases hs
  · next hpc =>
    cases hs
    have hout : s.pc.held = [] ∧ s.pc.unfreed = [] := by rw [hpc]; exact ⟨rfl, rfl⟩
    refine h.move s.rc hout (by split <;> exact ⟨rfl, rfl⟩) (fun l hl _ => ?_) (fun _ _ hp => ?_)
    · -- the test tells whether the queue is empty
      split
      · next hempty => exact hl.queueEmpty_iff.mp hempty
      · next hempty => exact fun hnil => hempty (hl.queueEmpty_iff.mpr hnil)
    · rw [hpc] at hp
      split <;> exact hp
  · next hpc =>
    -- one entry less is in the queue; the program holds it now
    refine h.drainStep (Option.some.inj hs) fun l waiting hq => ?_
    obtain ⟨t, l', ht, hrunning, ⟨event, hpc'⟩, hq'⟩ := hq.dequeued hpc
    refine ⟨t, [], ht, hrunning, ⟨rfl, rfl, by simp⟩, fun _ _ hp => ?_, l', waiting, ?_⟩
    · rw [hpc] at hp
      rw [hpc']
      exact hp
    · rwa [List.append_nil]
  · next w event hpc =>
    -- the handler gets the oldest event that waits
    refine h.drainStep (Option.some.inj hs) fun l waiting hq => ?_
    obtain ⟨a, bytes, t, waiting', ht, hrunning, hpc', hq'⟩ := hq.handed hpc w
    refine ⟨t, _, ht, hrunning, ⟨rfl, rfl, by simp⟩, fun _ _ hp => ?_, l, waiting', hq'⟩
    rw [hpc] at hp
    rw [hpc']
    exact hp
  · next event hpc =>
    refine h.drainStep (Option.some.inj hs) fun l waiting hq => ?_
    obtain ⟨t, ht, hrunning, hpc', hq'⟩ := hq.released hpc
    refine ⟨t, _, ht, hrunning, ⟨rfl, rfl, by simp⟩, fun _ _ hp => ?_, l, waiting, hq'⟩
    rw [hpc] at hp
    rw [hpc']
    exact hp
  · cases hs

/-- So does each run. -/
theorem Invariant.run (h : Invariant tr s) {inputs : List Input}
    (hs : LoopState.run s inputs = some (s', ls)) : Invariant (tr ++ ls) s' := by
  induction inputs generalizing s tr ls with
  | nil =>
    cases hs
    rwa [List.append_nil]
  | cons input inputs ih =>
    simp only [LoopState.run, Option.bind_eq_bind, Option.bind_eq_some_iff] at hs
    obtain ⟨⟨r, out⟩, hr, ⟨t, outs⟩, ht, hs⟩ := hs
    cases hs
    rw [← List.append_assoc]
    exact ih (h.step hr) ht

/-! ### Runs of `process_inotify_events` -/

/-- What holds of a run that did `trace` and stands at `s`. -/
structure Orderly (s : LoopState) (trace : List Label) : Prop where
  noFault : ∀ e, s.pc ≠ .fault e
  /-- events are handled in the order they were put in, none twice -/
  inOrder : handled trace <+: enqueued trace
  /-- and freed in that order, each one before the next one is handled -/
  freedInOrder : freed trace <+: (handled trace).map Prod.fst
  freedNext : (handled trace).length ≤ (freed trace).length + 1
  /-- at `event_check` and at the end nothing is left in the queue, and the
  handled events are those of the batches parsed before the flag was cleared
  and of a prefix of the one that was being parsed -/
  atRest : s.pc = .eventCheck ∨ s.pc = .returned →
    s.queue.head = none ∧ s.queue.tail = none ∧
    handled trace = enqueued trace ∧ freed trace = (handled trace).map Prod.fst ∧
    ∃ completed current parsed part,
      Accounted trace ((handled trace).map Prod.snd) completed current parsed part ∧
      (s.keepRunning = true → current = none)

/-- Every run of `process_inotify_events` is orderly, whatever `poll` and
`read` deliver and whenever the signal comes. -/
theorem process_inotify_events_run (w : UInt64) (entries : Entries (List UInt8))
    (inputs : List Input) {s : LoopState} {trace : List Label}
    (h : LoopState.run (.start w entries) inputs = some (s, trace)) : Orderly s trace := by
  have hinv := (invariant_start w entries).run h
  rw [List.nil_append] at hinv
  obtain ⟨⟨l, waiting, hq⟩, completed, current, parsed, part, hb, hp⟩ := hinv
  refine ⟨fun e he => ?_, ⟨waiting, hq.enqueued.symm⟩, ⟨_, hq.freed.symm⟩, ?_, fun hpc => ?_⟩
  · have hat := hq.atPc
    rwa [he] at hat
  · have hlen := congrArg List.length hq.freed
    rw [List.length_map, List.length_append] at hlen
    have hone : s.pc.unfreed.length ≤ 1 := by cases s.pc <;> simp [Pc.unfreed]
    omega
  · have hout : s.pc.outside = true := by
      rcases hpc with hpc | hpc <;> rw [hpc] <;> rfl
    obtain ⟨⟨hheld, hunfreed⟩, hat, hparsing⟩ := Pc.outside_spec hout
    obtain rfl : l = [] := (hat _ l).mp hq.atPc
    obtain ⟨hhandled, hfreed⟩ := hq.at_rest hheld hunfreed
    refine ⟨hq.holds.head_eq, hq.holds.tail, hhandled, hfreed, completed, current, parsed, part,
      ?_, (hparsing _ current part).mp hp⟩
    rw [hhandled]
    exact hb.accounted

/-- Two records are read, and the signal comes when the first one is in the
queue. -/
def interrupted : List Input :=
  [.go, .go, .poll 1 true, .go,
    .read (some [⟨1, 2, 0, [97, 0], by decide⟩, ⟨2, 2, 0, [98, 0], by decide⟩]),
    .go, .malloc 5, .signal, .go, .go, .go, .handled 1, .go, .go, .go]

/-- The first record is handled, the second one is not. -/
theorem process_inotify_events_run_interrupted :
    ∃ s trace, LoopState.run (.start 1 fun _ => none) interrupted = some (s, trace) ∧
      s.pc = .returned ∧
      handled trace = [(5, [1, 0, 0, 0, 2, 0, 0, 0, 0, 0, 0, 0, 2, 0, 0, 0, 97, 0])] ∧
      Orderly s trace := by
  have hsome : (LoopState.run (.start 1 fun _ => none) interrupted).isSome := rfl
  have hrun := (Option.some_get hsome).symm
  exact ⟨_, _, hrun, rfl, rfl, process_inotify_events_run 1 (fun _ => none) interrupted hrun⟩

end SecuritySystem.Backup
