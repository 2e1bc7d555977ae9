/-
SecuritySystem/Backup/ReadEvents.lean

`read_events`, byte by byte.

The kernel writes records of varying length one behind the other, and the code
finds the next one by the length in the header of the last.  Each record is
copied into a block of its own, behind the link of the queue entry; so two
sizes are computed from one length, and they must match.

`readEvents_encodeAll` says that reading undoes writing: the records come out
as they went in, in order, and the cursor ends at the end of what was read.
The machine of the event loop makes the same steps (`queueEvent_eq_readEvent`).
-/
import SecuritySystem.Backup.EventLoopSafety
import SecuritySystem.Lib.StringField

namespace SecuritySystem.Backup

open CMem

/-! ### The code -/

/-- `offsetof(struct queue_entry, inot_ev)`: the link is a pointer of 8 bytes. -/
def offsetofInotEv : ℕ := 8

/-- `offsetof(struct queue_entry, inot_ev.name)` -/
def offsetofInotEvName : ℕ := 24

/-- What `read_events` finds: the results of its calls of `malloc` in order,
the old content of the blocks, and the flag at each test of the loop. -/
structure ReadEnv where
  malloc : ℕ → Option Addr
  old : Addr → ℕ → UInt8
  backupKeepRunning : ℕ → Bool

/-- A block of `n` bytes from `malloc`. -/
def ReadEnv.block (env : ReadEnv) (a : Addr) (n : ℕ) : List UInt8 := (List.range n).map (env.old a)

/-- `pevent->len` -/
def peventLen (buffer : List UInt8) (i : ℕ) : Except Fault ℕ := do
  let len ← readAt buffer (i + 12) 4
  return ofLe len

/-- What is known when the loop ends. -/
structure ReadState where
  bufferI : ℕ
  count : ℕ
  queue : Queue (List UInt8)

section Code

variable (env : ReadEnv) (buffer : List UInt8)

/-- The body of the loop.  An entry of the queue holds the bytes of its block
behind the link, which is set by `queue_enqueue`. -/
def readEvent (s : ReadState) : Except Fault ReadState := do
  let len ← peventLen buffer s.bufferI
  let eventSize := offsetofName + len
  let qEventSize := offsetofInotEvName + len
  match env.malloc s.count with
  | none => .error .badPointer
  | some event =>
    let pevent ← readAt buffer s.bufferI eventSize
    let block ← writeAt (env.block event qEventSize) offsetofInotEv pevent
    let queue ← queueEnqueue event
      (s.queue.setEntry event (some ⟨none, block.drop offsetofInotEv⟩))
    return ⟨s.bufferI + eventSize, s.count + 1, queue⟩

/-- `while (buffer_i < r && backup_keep_running)`; `none` when the loop has
not ended after the given number of tests. -/
def readEventsLoop : ℕ → ReadState → Option (Except Fault ReadState)
  | 0, _ => none
  | tests + 1, s =>
    if s.bufferI < buffer.length && env.backupKeepRunning s.count then
      match readEvent env buffer s with
      | .error e => some (.error e)
      | .ok s => readEventsLoop tests s
    else some (.ok s)

end Code

/-- `read_events`, on what `read` delivers, `none` for an error: the value
returned, and what is known at the end of the loop. -/
def readEvents (env : ReadEnv) (tests : ℕ) (delivered : Option (List UInt8))
    (queue : Queue (List UInt8)) : Option (Except Fault (ℤ × ReadState)) :=
  match delivered with
  | none => some (.ok (HELPERS_INVALID_EXIT, ⟨0, 0, queue⟩))
  | some buffer =>
    if buffer = [] then some (.ok (HELPERS_INVALID_EXIT, ⟨0, 0, queue⟩))
    else if HELPERS_MAX_BUFFER_SIZE < buffer.length then some (.error .overflow)
    else (readEventsLoop env buffer tests ⟨0, 0, queue⟩).map fun r => r.map fun s => (s.count, s)

/-! ### The events in the queue -/

/-- `struct inotify_event` -/
structure EventFields where
  wd : UInt32
  mask : UInt32
  cookie : UInt32
  len : UInt32
  name : List UInt8
deriving DecidableEq

/-- The fields as they are read from memory. -/
def readFields (mem : List UInt8) : Except Fault EventFields := do
  let wd ← readAt mem 0 4
  let mask ← readAt mem 4 4
  let cookie ← readAt mem 8 4
  let len ← readAt mem 12 4
  let name ← readAt mem offsetofName (ofLe len)
  return ⟨.ofNat (ofLe wd), .ofNat (ofLe mask), .ofNat (ofLe cookie), .ofNat (ofLe len), name⟩

/-- The record as `handle_event` sees it. -/
def InotifyRecord.fields (r : InotifyRecord) : EventFields :=
  ⟨r.wd, r.mask, r.cookie, .ofNat r.name.length, r.name⟩

/-- The blocks that `malloc` will give are new and differ. -/
structure Gives (env : ReadEnv) (count : ℕ) (queue : Queue (List UInt8)) (blocks : List Addr) :
    Prop where
  malloc : ∀ k a, blocks[k]? = some a → env.malloc (count + k) = some a
  unused : ∀ a ∈ blocks, queue.entries a = none
  nodup : blocks.Nodup

/-! ### One record -/

section Record

variable {env : ReadEnv} {buffer : List UInt8} {r : InotifyRecord} {a : Addr}

/-- A field of four bytes, with what stands before and behind it. -/
theorem readAt_word {mem : List UInt8} {i n : ℕ} (before behind : List UInt8)
    (hmem : mem = before ++ (leBytes 4 n ++ behind)) (hi : before.length = i) :
    readAt mem i 4 = .ok (leBytes 4 n) := by
  have hread := readAt_append before (leBytes 4 n) behind
  rwa [length_leBytes, hi, ← hmem] at hread

theorem ofNat_ofLe_leBytes (w : UInt32) : UInt32.ofNat (ofLe (leBytes 4 w.toNat)) = w := by
  rw [ofLe_leBytes w.toNat_lt, UInt32.ofNat_toNat]

/-- **The fields of a record** are read back from its bytes. -/
theorem readFields_encode (r : InotifyRecord) : readFields r.encode = .ok r.fields := by
  let wd := leBytes 4 r.wd.toNat
  let mask := leBytes 4 r.mask.toNat
  let cookie := leBytes 4 r.cookie.toNat
  let len := leBytes 4 r.name.length
  have hwd : readAt r.encode 0 4 = .ok wd :=
    readAt_word [] (mask ++ cookie ++ len ++ r.name)
      (by simp [InotifyRecord.encode, mask, cookie, len]) rfl
  have hmask : readAt r.encode 4 4 = .ok mask :=
    readAt_word wd (cookie ++ len ++ r.name)
      (by simp [InotifyRecord.encode, wd, cookie, len]) (by simp [wd])
  have hcookie : readAt r.encode 8 4 = .ok cookie :=
    readAt_word (wd ++ mask) (len ++ r.name)
      (by simp [InotifyRecord.encode, wd, mask, len]) (by simp [wd, mask])
  have hlen : readAt r.encode 12 4 = .ok len :=
    readAt_word (wd ++ mask ++ cookie) r.name
      (by simp [InotifyRecord.encode, wd, mask, cookie]) (by simp [wd, mask, cookie])
  have hlenValue : ofLe len = r.name.length := ofLe_leBytes r.len
  have hname : readAt r.encode offsetofName r.name.length = .ok r.name := by
    have hread := readAt_append (wd ++ mask ++ cookie ++ len) r.name []
    have hheader : (wd ++ mask ++ cookie ++ len).length = offsetofName := by
      simp [wd, mask, cookie, len, offsetofName]
    rwa [hheader, List.append_nil] at hread
  have hfields : EventFields.mk (.ofNat (ofLe wd)) (.ofNat (ofLe mask)) (.ofNat (ofLe cookie))
      (.ofNat r.name.length) r.name = r.fields := by
    rw [ofNat_ofLe_leBytes, ofNat_ofLe_leBytes, ofNat_ofLe_leBytes, InotifyRecord.fields]
  rw [readFields, hwd, ok_bind, hmask, ok_bind, hcookie, ok_bind, hlen, ok_bind, hlenValue, hname,
    ok_bind, hfields]
  rfl

/-- **The two sizes match**: the record fills its block behind the link. -/
theorem writeAt_block (env : ReadEnv) (a : Addr) {pevent : List UInt8} {len : ℕ}
    (hlen : pevent.length = offsetofName + len) :
    ∃ block, writeAt (env.block a (offsetofInotEvName + len)) offsetofInotEv pevent = .ok block ∧
      block.drop offsetofInotEv = pevent := by
  have hblock : (env.block a (offsetofInotEvName + len)).length = offsetofInotEvName + len := by
    rw [ReadEnv.block, List.length_map, List.length_range]
  have hfit : offsetofInotEv + pevent.length = offsetofInotEvName + len := by
    rw [hlen, offsetofInotEv, offsetofName, offsetofInotEvName]
    omega
  have hfront : ((env.block a (offsetofInotEvName + len)).take offsetofInotEv).length =
      offsetofInotEv := by
    rw [List.length_take, hblock, offsetofInotEv, offsetofInotEvName]
    omega
  refine ⟨_, if_pos (hfit.trans_le hblock.ge), ?_⟩
  rw [List.drop_left' hfront, hfit, List.drop_of_length_le hblock.le, List.append_nil]

/-- What the body does, once there is a block. -/
theorem readEvent_of_malloc {s : ReadState} (hmalloc : env.malloc s.count = some a) :
    readEvent env buffer s = do
      let size ← LoopState.eventSize buffer s.bufferI
      let bytes ← readAt buffer s.bufferI size
      let queue ← queueEnqueue a (s.queue.setEntry a (some ⟨none, bytes⟩))
      return ⟨s.bufferI + size, s.count + 1, queue⟩ := by
  rw [readEvent, peventLen, LoopState.eventSize, hmalloc]
  rcases readAt buffer (s.bufferI + 12) 4 with e | len
  · rfl
  · show (readAt buffer s.bufferI (offsetofName + ofLe len) >>= fun pevent => _) =
      (readAt buffer s.bufferI (offsetofName + ofLe len) >>= fun bytes => _)
    rcases hread : readAt buffer s.bufferI (offsetofName + ofLe len) with e | pevent
    · rfl
    · obtain ⟨block, hwrite, hdrop⟩ := writeAt_block env a (length_of_readAt hread)
      show (writeAt _ _ pevent >>= fun block => _) = (queueEnqueue a _ >>= fun queue => _)
      rw [hwrite]
      show (queueEnqueue a (s.queue.setEntry a (some ⟨none, block.drop offsetofInotEv⟩)) >>= _) = _
      rw [hdrop]

/-- **The machine of the event loop** makes the same step. -/
theorem queueEvent_eq_readEvent {s : LoopState} {i count : ℕ}
    (hmalloc : env.malloc count = some a) :
    s.queueEvent buffer i count a = (readEvent env buffer ⟨i, count, s.queue⟩).map fun t =>
      ({ s with queue := t.queue, pc := .parse buffer t.bufferI t.count },
        [.enqueue a ((buffer.drop i).take (t.bufferI - i))]) := by
  rw [readEvent_of_malloc hmalloc, LoopState.queueEvent]
  rcases LoopState.eventSize buffer i with e | size
  · rfl
  · show (readAt buffer i size >>= fun bytes => _) =
      ((readAt buffer i size >>= fun bytes => _) : Except Fault ReadState).map _
    rcases hread : readAt buffer i size with e | bytes
    · rfl
    · show (queueEnqueue a _ >>= fun queue => _) =
        ((queueEnqueue a _ >>= fun queue => _) : Except Fault ReadState).map _
      rcases queueEnqueue a (s.queue.setEntry a (some ⟨none, bytes⟩)) with e | queue
      · rfl
      · show Except.ok (_, [Label.enqueue a bytes]) = Except.ok (_, [Label.enqueue a _])
        rw [Nat.add_sub_cancel_left, ← readAt_eq_ok hread]
        rfl

end Record

/-! ### All records -/

/-- The records are at the end of the queue, in order, each in its block; the
other blocks are as they were. -/
structure Enqueued (queue queue' : Queue (List UInt8)) (l blocks : List Addr)
    (records : List InotifyRecord) : Prop where
  holds : Holds queue' (l ++ blocks)
  events : blocks.map queue'.eventOf = records.map fun r => some r.encode
  others : ∀ a ∉ blocks, queue'.eventOf a = queue.eventOf a

section Loop

variable {env : ReadEnv} {buffer before behind : List UInt8} {r : InotifyRecord} {a : Addr}
variable {s : ReadState} {l : List Addr}

theorem eventOf_eq_none_iff {queue : Queue (List UInt8)} :
    queue.eventOf a = none ↔ queue.entries a = none := Option.map_eq_none_iff

/-- The record at the cursor is put in the queue, and the cursor moves to the
next. -/
theorem readEvent_encode (hbuffer : buffer = before ++ (r.encode ++ behind))
    (hi : s.bufferI = before.length) (hmalloc : env.malloc s.count = some a)
    (hq : Holds s.queue l) (hunused : s.queue.entries a = none) :
    ∃ queue', readEvent env buffer s = .ok ⟨(before ++ r.encode).length, s.count + 1, queue'⟩ ∧
      Enqueued s.queue queue' l [a] [r] := by
  -- a new block is not in the queue
  have hal : a ∉ l := by
    intro ha
    obtain ⟨e, he⟩ := hq.live a ha
    rw [hunused] at he
    cases he
  have hset := hq.write hal (some ⟨none, r.encode⟩)
  obtain ⟨queue', henq, hq', hevents⟩ := hset.enqueue hal (Function.update_self ..)
  refine ⟨queue', ?_, hq', ?_, fun b hb => ?_⟩
  · rw [readEvent_of_malloc hmalloc, hi, hbuffer, eventSize_encode]
    show (readAt _ _ r.encode.length >>= fun bytes => _) = _
    rw [readAt_append]
    show (queueEnqueue a (s.queue.setEntry a (some ⟨none, r.encode⟩)) >>= fun queue => _) = _
    rw [henq, List.length_append]
    rfl
  · show [queue'.eventOf a] = [some r.encode]
    rw [hevents, Queue.eventOf, Queue.setEntry_entries, Function.update_self]
    rfl
  · have hne : b ≠ a := fun h => hb (h ▸ List.mem_singleton_self a)
    rw [hevents, Queue.eventOf, Queue.setEntry_entries, Function.update_of_ne hne]
    rfl

/-- The next blocks, behind the one that was used. -/
theorem Gives.tail {queue queue' : Queue (List UInt8)} {count : ℕ} {blocks : List Addr}
    (h : Gives env count queue (a :: blocks))
    (hothers : ∀ b ∉ [a], queue'.eventOf b = queue.eventOf b) :
    Gives env (count + 1) queue' blocks where
  malloc k b hb := by
    rw [Nat.add_right_comm]
    exact h.malloc (k + 1) b hb
  unused b hb := by
    have hne : b ∉ [a] := fun hmem =>
      (List.nodup_cons.mp h.nodup).1 (List.mem_singleton.mp hmem ▸ hb)
    rw [← eventOf_eq_none_iff, hothers b hne, eventOf_eq_none_iff]
    exact h.unused b (List.mem_cons_of_mem a hb)
  nodup := (List.nodup_cons.mp h.nodup).2

/-- **The loop**, from the beginning of a record on. -/
theorem readEventsLoop_encodeAll (hrun : ∀ k, env.backupKeepRunning k = true)
    {records : List InotifyRecord} {blocks : List Addr}
    (hbuffer : buffer = before ++ encodeAll records) (hi : s.bufferI = before.length)
    (hq : Holds s.queue l) (hgives : Gives env s.count s.queue blocks)
    (hlen : blocks.length = records.length) :
    ∃ queue', (∀ tests, records.length < tests → readEventsLoop env buffer tests s =
        some (.ok ⟨buffer.length, s.count + records.length, queue'⟩)) ∧
      Enqueued s.queue queue' l blocks records := by
  induction records generalizing before s l blocks with
  | nil =>
    obtain rfl := List.length_eq_zero_iff.mp hlen
    rw [encodeAll_nil, List.append_nil] at hbuffer
    subst hbuffer
    refine ⟨s.queue, fun tests htests => ?_, ?_, rfl, fun _ _ => rfl⟩
    · obtain ⟨tests, rfl⟩ := Nat.exists_eq_succ_of_ne_zero htests.ne'
      rw [readEventsLoop, if_neg (by simp [hi]), List.length_nil, Nat.add_zero, ← hi]
    · rwa [List.append_nil]
  | cons r records ih =>
    -- one record goes from the bytes in front to `before`, and one block is used
    obtain ⟨a, blocks, rfl⟩ := List.exists_cons_of_length_eq_add_one hlen
    rw [encodeAll_cons] at hbuffer
    obtain ⟨queue₁, hread, henq⟩ := readEvent_encode hbuffer hi (hgives.malloc 0 a rfl) hq
      (hgives.unused a List.mem_cons_self)
    obtain ⟨queue', hloop, henq'⟩ := ih
      (s := ⟨(before ++ r.encode).length, s.count + 1, queue₁⟩)
      (hbuffer.trans (List.append_assoc ..).symm) rfl henq.holds (hgives.tail henq.others)
      (Nat.succ_inj.mp hlen)
    have hnot : a ∉ blocks := (List.nodup_cons.mp hgives.nodup).1
    refine ⟨queue', fun tests htests => ?_, ?_, ?_, fun b hb => ?_⟩
    · obtain ⟨tests, rfl⟩ := Nat.exists_eq_succ_of_ne_zero (Nat.ne_zero_of_lt htests)
      -- a record has its header at least, so the test of the loop holds
      have hlt : s.bufferI < buffer.length := by
        have hpos := List.length_pos_of_ne_nil r.encode_ne_nil
        rw [hbuffer, hi, List.length_append, List.length_append]
        omega
      rw [readEventsLoop, if_pos (by simp [hlt, hrun]), hread]
      show readEventsLoop env buffer tests _ = _
      rw [hloop tests (Nat.succ_lt_succ_iff.mp htests), List.length_cons, Nat.add_assoc,
        Nat.add_comm 1]
    · have hholds := henq'.holds
      rwa [List.append_assoc, List.singleton_append] at hholds
    · rw [List.map_cons, List.map_cons, henq'.events, henq'.others a hnot]
      exact congrArg (· :: _) (List.cons.inj henq.events).1
    · rw [henq'.others b fun h => hb (List.mem_cons_of_mem a h)]
      exact henq.others b fun h => hb (List.mem_singleton.mp h ▸ List.mem_cons_self)

end Loop

/-- **Reading undoes writing**: the records come out of the queue as the
kernel wrote them, in order and behind what was there, their number is
returned, and the cursor is at the end of what was read.  No access faults, so
each stays inside what was read, or inside its block. -/
theorem readEvents_encodeAll {env : ReadEnv} {queue : Queue (List UInt8)} {l blocks : List Addr}
    {records : List InotifyRecord} (hne : records ≠ [])
    (hfit : (encodeAll records).length ≤ HELPERS_MAX_BUFFER_SIZE)
    (hrun : ∀ k, env.backupKeepRunning k = true) (hq : Holds queue l)
    (hgives : Gives env 0 queue blocks) (hlen : blocks.length = records.length) :
    ∃ queue', (∀ tests, records.length < tests →
        readEvents env tests (some (encodeAll records)) queue =
          some (.ok (records.length, ⟨(encodeAll records).length, records.length, queue'⟩))) ∧
      Holds queue' (l ++ blocks) ∧
      blocks.map (fun a => (queue'.eventOf a).map readFields) =
        records.map (fun r => some (.ok r.fields)) ∧
      ∀ a ∉ blocks, queue'.eventOf a = queue.eventOf a := by
  obtain ⟨queue', hloop, henq⟩ := readEventsLoop_encodeAll (s := ⟨0, 0, queue⟩) hrun
    (List.nil_append (encodeAll records)).symm rfl hq hgives hlen
  refine ⟨queue', fun tests htests => ?_, henq.holds, ?_, henq.others⟩
  · have hbuffer : encodeAll records ≠ [] := by
      obtain ⟨r, records, rfl⟩ := List.exists_cons_of_ne_nil hne
      rw [encodeAll_cons]
      exact List.append_ne_nil_of_left_ne_nil r.encode_ne_nil _
    rw [readEvents, if_neg hbuffer, if_neg (Nat.not_lt.mpr hfit), hloop tests htests, Nat.zero_add]
    rfl
  · have hfields : blocks.map (fun a => (queue'.eventOf a).map readFields) =
        (blocks.map queue'.eventOf).map (Option.map readFields) := by
      rw [List.map_map]
      rfl
    rw [hfields, henq.events, List.map_map]
    exact List.map_congr_left fun r _ => congrArg some (readFields_encode r)

/-- The creation of "x", padded to 16 bytes, and the end of a watch. -/
def twoRecords : List InotifyRecord :=
  [⟨1, IN_CREATE, 0, 120 :: List.replicate 15 0, by decide⟩, ⟨2, IN_IGNORED, 0, [], by decide⟩]

theorem readEvents_encodeAll_two :
    ∃ queue', (∀ tests, 2 < tests →
        readEvents ⟨fun k => some (k + 1), fun _ _ => 7, fun _ => true⟩ tests
            (some (encodeAll twoRecords)) ⟨⟨none, none⟩, fun _ => none⟩ =
          some (.ok (2, ⟨48, 2, queue'⟩))) ∧
      Holds queue' ([] ++ [1, 2]) ∧
      [1, 2].map (fun a => (queue'.eventOf a).map readFields) =
        twoRecords.map (fun r => some (.ok r.fields)) ∧
      ∀ a ∉ [1, 2], queue'.eventOf a = none := by
  have hgives : Gives ⟨fun k => some (k + 1), fun _ _ => 7, fun _ => true⟩ 0
      (⟨⟨none, none⟩, fun _ => none⟩ : Queue (List UInt8)) [1, 2] := by
    refine ⟨fun k a hk => ?_, fun _ _ => rfl, by decide⟩
    rcases k with - | - | k
    · exact hk
    · exact hk
    · cases hk
  have hne : twoRecords ≠ [] := by decide
  have hfit : (encodeAll twoRecords).length ≤ HELPERS_MAX_BUFFER_SIZE := by decide
  exact readEvents_encodeAll hne hfit (fun _ => rfl) (queueCreate_holds rfl) hgives rfl

end SecuritySystem.Backup
