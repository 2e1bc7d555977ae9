/-
SecuritySystem/Backup/EventThreadStop.lean

SIGINT ends the event thread.

The loops of the thread test `backup_keep_running` at several places, and the
signal may come at any of them.  Once the flag is cleared, each further step of
the thread lowers a rank, in which an event that is still in the queue counts
four.  So the thread makes a bounded number of steps and is done
(`pthread_on_dir_run_stops`); it is not caught in `event_check`, it reads at
most once more, and it puts nothing more in the queue than the event it is at.
-/
import SecuritySystem.Backup.EventThreadSafety

namespace SecuritySystem.Backup

open CMem CString

variable {path : CString} {s s' : DirThread} {s₀ : State} {tr tr' out : List DirLabel}

/-! ### The rank of the loop -/

/-- How many steps are left in the loop with `n` events in the queue and the
flag cleared, at most. -/
def Pc.rank (n : ℕ) : Pc → ℕ
  | .fault _ => 0
  | .returned => 1
  | .whileWatched => 2
  | .handle _ => 4 * n + 1
  | .dequeue => 4 * n + 2
  | .drain => 4 * n + 3
  | .free _ => 4 * n + 4
  | .parse _ _ _ => 4 * n + 4
  | .read => 4 * n + 5
  | .checked _ => 4 * n + 6
  | .eventCheck => 4 * n + 7
  | .poll => 4 * n + 8
  | .parseEvent _ _ _ => 4 * n + 9

/-- The events that were put in the queue and not handled yet. -/
def pending (ls : List Label) : ℕ := (enqueued ls).length - (handled ls).length

section Loop

variable {l l' : LoopState} {ltr ls : List Label} {input : Input}

/-- A step that neither puts in nor handles. -/
theorem pending_append_of_nil (he : enqueued ls = []) (hh : handled ls = []) :
    pending (ltr ++ ls) = pending ltr := by
  rw [pending, pending, enqueued_append, handled_append, he, hh, List.append_nil, List.append_nil]

theorem Invariant.length_handled_le (h : Invariant ltr l) :
    (handled ltr).length ≤ (enqueued ltr).length := h.handled_prefix.length_le

/-- Something is pending while the program holds an entry. -/
theorem Invariant.pending_pos (h : Invariant ltr l) {a : Addr} (hpc : l.pc = .handle (some a)) :
    0 < pending ltr := by
  obtain ⟨bytes, -, hpre⟩ := h.held hpc
  have hle := hpre.length_le
  rw [List.length_append, List.length_singleton] at hle
  unfold pending
  omega

/-- **Each step of the loop lowers the rank**, once the flag is cleared. -/
theorem Invariant.rank_step (h : Invariant ltr l) (hclear : l.keepRunning = false)
    (hsignal : input ≠ .signal) (hs : l.step input = some (l', ls)) :
    l'.keepRunning = false ∧ l'.pc.rank (pending (ltr ++ ls)) < l.pc.rank (pending ltr) := by
  obtain ⟨⟨as, waiting, hq⟩, hbatch⟩ := id h
  unfold LoopState.step at hs
  split at hs
  · exact absurd rfl hsignal
  · next hpc =>
    cases hs
    rw [hpc, hclear]
    exact ⟨hclear, Nat.lt_succ_self 1⟩
  · next hpc =>
    -- `event_check` gives up
    cases hs
    rw [List.append_nil, hpc, hclear]
    exact ⟨hclear, Nat.lt_succ_self _⟩
  · next ret pollin hpc =>
    cases hs
    refine ⟨hclear, ?_⟩
    rw [List.append_nil, hpc]
    show (LoopState.polled ret pollin).rank (pending ltr) < 4 * pending ltr + 8
    unfold LoopState.polled
    split_ifs <;> simp only [Pc.rank] <;> omega
  · next ret hpc =>
    cases hs
    refine ⟨hclear, ?_⟩
    rw [List.append_nil, hpc]
    show (if ret > 0 then Pc.read else .whileWatched).rank (pending ltr) < 4 * pending ltr + 6
    split_ifs <;> simp only [Pc.rank] <;> omega
  · next hpc =>
    cases hs
    refine ⟨hclear, ?_⟩
    rw [hpc]
    show 1 < 4 * pending ltr + 5
    omega
  · next records hpc =>
    split at hs
    · cases hs
      rw [pending_append_of_nil rfl rfl, hpc]
      exact ⟨hclear, Nat.lt_succ_self _⟩
    · cases hs
  · next buffer i count hpc =>
    -- no further record is parsed
    rw [hclear, Bool.and_false, if_neg Bool.false_ne_true] at hs
    cases hs
    refine ⟨rfl, ?_⟩
    rw [List.append_nil, hpc]
    show (if count < 0 then Pc.returned else .drain).rank (pending ltr) < 4 * pending ltr + 4
    split_ifs <;> simp only [Pc.rank] <;> omega
  · next event buffer i count hpc =>
    -- the record at the cursor is still put in the queue
    split at hs
    · next hfresh =>
      obtain ⟨completed, current, parsed, part, hb, hp⟩ := hbatch
      rw [hpc] at hp
      obtain ⟨size, bytes, hsize, hbytes, -⟩ := hb.queued hp event
      obtain ⟨t, ht, htpc, htrun, -⟩ := hq.queued hpc hfresh hsize hbytes
      rw [ht] at hs
      cases hs
      refine ⟨htrun.trans hclear, ?_⟩
      have hle := h.length_handled_le
      rw [hpc, htpc]
      show 4 * pending (ltr ++ [.enqueue event bytes]) + 4 < 4 * pending ltr + 9
      rw [pending, pending, enqueued_append, handled_append, List.length_append, List.length_append]
      show 4 * (_ + 1 - (_ + 0)) + 4 < _
      omega
    · cases hs
  · next hpc =>
    cases hs
    refine ⟨hclear, ?_⟩
    rw [List.append_nil, hpc]
    show (if queueEmpty l.queue then Pc.whileWatched else .dequeue).rank (pending ltr) <
      4 * pending ltr + 3
    split_ifs <;> simp only [Pc.rank] <;> omega
  · next hpc =>
    obtain ⟨t, as', ht, htrun, ⟨event, htpc⟩, -⟩ := hq.dequeued hpc
    rw [ht] at hs
    cases hs
    rw [List.append_nil, hpc, htpc]
    exact ⟨htrun.trans hclear, Nat.lt_succ_self _⟩
  · next w event hpc =>
    -- one event less is pending
    obtain ⟨a, bytes, t, waiting', ht, htrun, htpc, -⟩ := hq.handed hpc w
    have hat := hq.atPc
    rw [hpc] at hat
    obtain ⟨b, rfl, -⟩ := hat
    have hpos := h.pending_pos hpc
    rw [ht] at hs
    cases hs
    refine ⟨htrun.trans hclear, ?_⟩
    rw [hpc, htpc]
    show 4 * pending (ltr ++ [.handle a bytes]) + 4 < 4 * pending ltr + 1
    unfold pending at hpos ⊢
    rw [enqueued_append, handled_append, List.length_append, List.length_append]
    show 4 * (_ + 0 - (_ + 1)) + 4 < _
    omega
  · next event hpc =>
    obtain ⟨t, ht, htrun, htpc, -⟩ := hq.released hpc
    rw [ht] at hs
    cases hs
    rw [pending_append_of_nil rfl rfl, hpc, htpc]
    exact ⟨htrun.trans hclear, Nat.lt_succ_self _⟩
  · cases hs

end Loop

/-! ### The rank of the thread -/

/-- The same for the thread. -/
def DirThread.rank (tr : List DirLabel) (s : DirThread) : ℕ :=
  match s.pc with
  | .returned | .exited | .fault _ => 0
  | .destroying => 1
  | .closing => 2
  | .processing => s.loop.pc.rank (pending (loopTrace tr)) + 2
  | .watching => 5
  | .creating => 6
  | .opening => 7

/-- The thread has ended, or ended the process, or faulted. -/
def DirPc.final : DirPc → Bool
  | .returned | .exited | .fault _ => true
  | _ => false

theorem rank_le (tr : List DirLabel) (s : DirThread) :
    s.rank tr ≤ 4 * pending (loopTrace tr) + 11 := by
  have hloop : s.loop.pc.rank (pending (loopTrace tr)) ≤ 4 * pending (loopTrace tr) + 9 := by
    cases s.loop.pc <;> simp only [Pc.rank] <;> omega
  unfold DirThread.rank
  cases s.pc <;> dsimp only <;> omega

/-- What is not a step of the thread itself keeps the rank. -/
theorem rank_congr (hpc : s'.pc = s.pc) (hloop : s'.loop.pc = s.loop.pc)
    (hquiet : enqueued (loopTrace out) = [] ∧ handled (loopTrace out) = []) :
    s'.rank (tr ++ out) = s.rank tr := by
  unfold DirThread.rank
  rw [hpc, hloop, loopTrace_append, pending_append_of_nil hquiet.1 hquiet.2]

/-- A step of the loop, seen from the thread. -/
theorem DirInv.rank_looped (h : DirInv s₀ tr s) (hpc : s.pc = .processing)
    (hclear : s.loop.keepRunning = false) {input : Input} {l : LoopState} {ls : List Label}
    (hl : s.loop.step input = some (l, ls)) (hsignal : input ≠ .signal)
    (hout : loopTrace out = ls) {t : State} :
    l.keepRunning = false ∧
      ({ s with loop := l, handler := t } : DirThread).rank (tr ++ out) < s.rank tr := by
  obtain ⟨hclear', hlt⟩ := h.loop.rank_step hclear hsignal hl
  refine ⟨hclear', ?_⟩
  unfold DirThread.rank
  rw [hpc, loopTrace_append, hout]
  exact Nat.add_lt_add_right hlt 2

/-- **Each step of the thread lowers the rank**, once the flag is cleared. -/
theorem DirInv.rank_step (h : DirInv s₀ tr s) (hclear : s.loop.keepRunning = false) {own : Bool}
    (hs : DirStep path s own s' out) :
    s'.loop.keepRunning = false ∧
      s'.rank (tr ++ out) + (if own then 1 else 0) ≤ s.rank tr := by
  cases hs with
  | signal => exact ⟨rfl, (rank_congr rfl rfl ⟨rfl, rfl⟩).le⟩
  | scanned => exact ⟨hclear, (rank_congr rfl rfl ⟨rfl, rfl⟩).le⟩
  | opened fd hpc =>
    refine ⟨hclear, ?_⟩
    rw [DirThread.rank, DirThread.rank, hpc]
    split_ifs <;> simp
  | exited hpc =>
    refine ⟨hclear, ?_⟩
    rw [DirThread.rank, DirThread.rank, hpc]
    simp
  | created hpc =>
    refine ⟨hclear, ?_⟩
    rw [DirThread.rank, DirThread.rank, hpc]
    simp
  | watched wd hpc =>
    have hplace := h.place
    rw [Place, hpc] at hplace
    refine ⟨hclear, ?_⟩
    rw [DirThread.rank, DirThread.rank, hpc]
    rcases (watchRoot wd s.handler).2 with e | r
    · simp [afterWatch]
    · unfold afterWatch
      dsimp only
      rw [hplace.2.1]
      split_ifs <;> simp [Pc.rank]
  | @looped input l ls hpc hplain hl =>
    refine h.rank_looped hpc hclear hl ?_ (of_loop ls).1
    rintro rfl
    cases hplain
  | @delivered events l ls hpc hl =>
    refine h.rank_looped hpc hclear hl ?_ ?_
    · rintro ⟨⟩
    · exact (of_loop ls).1
  | unreadable hpc =>
    refine ⟨hclear, ?_⟩
    rw [DirThread.rank, DirThread.rank, hpc]
    simp
  | faulted hpc =>
    refine ⟨hclear, ?_⟩
    rw [DirThread.rank, DirThread.rank, hpc]
    simp
  | @handled a env event t l ls hpc _ _ _ _ _ hl =>
    refine h.rank_looped hpc hclear hl ?_ ?_
    · rintro ⟨⟩
    · exact (of_loop ls).1
  | left hpc hret =>
    refine ⟨hclear, ?_⟩
    rw [DirThread.rank, DirThread.rank, hpc, hret]
    split_ifs <;> simp [Pc.rank]
  | closeFailed r hpc =>
    refine ⟨hclear, ?_⟩
    rw [DirThread.rank, DirThread.rank, hpc]
    simp
  | closed r hpc =>
    refine ⟨hclear, ?_⟩
    rw [DirThread.rank, DirThread.rank, hpc]
    simp
  | destroying hpc =>
    have hplace := h.place
    rw [Place, hpc] at hplace
    unfold DirThread.destroyStep
    rw [h.loop.head_eq_none hplace.1, DirThread.rank, DirThread.rank, hpc]
    split_ifs <;> exact ⟨hclear, by simp⟩

/-! ### There is always a step -/

/-- The next step puts an event in the queue. -/
def Pc.allocates : Pc → Bool
  | .parseEvent _ _ _ => true
  | _ => false

/-- With the flag cleared, the loop comes to no further record. -/
theorem allocates_step {l l' : LoopState} {ls : List Label} {input : Input}
    (hclear : l.keepRunning = false) (hs : l.step input = some (l', ls))
    (hsignal : input ≠ .signal) : l'.pc.allocates = false := by
  have hfault : ∀ {r : Except Fault (LoopState × List Label)}, l.orFault r = (l', ls) →
      (∀ t out, r = .ok (t, out) → t.pc.allocates = false) → l'.pc.allocates = false := by
    rintro (e | ⟨t, out⟩) hr hall
    · obtain ⟨rfl, rfl⟩ := Prod.mk.inj hr
      rfl
    · obtain ⟨rfl, rfl⟩ := Prod.mk.inj hr
      exact hall _ _ rfl
  unfold LoopState.step at hs
  split at hs
  · exact absurd rfl hsignal
  · cases hs
    show (ite _ _ _ : Pc).allocates = false
    split <;> rfl
  · cases hs
    show (ite _ _ _ : Pc).allocates = false
    split <;> rfl
  · cases hs
    unfold LoopState.goto LoopState.polled
    split_ifs <;> rfl
  · cases hs
    show (ite _ _ _ : Pc).allocates = false
    split <;> rfl
  · cases hs
    rfl
  · split at hs <;> cases hs
    rfl
  · rw [hclear, Bool.and_false, if_neg Bool.false_ne_true] at hs
    cases hs
    show (ite _ _ _ : Pc).allocates = false
    split <;> rfl
  · split at hs
    · refine hfault (Option.some.inj hs) fun t out ht => ?_
      obtain ⟨size, -, ht⟩ := bind_eq_ok ht
      obtain ⟨bytes, -, ht⟩ := bind_eq_ok ht
      obtain ⟨queue, -, ht⟩ := bind_eq_ok ht
      cases ht
      rfl
    · cases hs
  · cases hs
    show (ite _ _ _ : Pc).allocates = false
    split <;> rfl
  · refine hfault (Option.some.inj hs) fun t out ht => ?_
    obtain ⟨⟨event, queue⟩, -, ht⟩ := bind_eq_ok ht
    cases ht
    rfl
  · next w event hpc =>
    refine hfault (Option.some.inj hs) fun t out ht => ?_
    rcases event with - | a
    · cases ht
    · obtain ⟨entry, -, ht⟩ := bind_eq_ok ht
      cases ht
      rfl
  · refine hfault (Option.some.inj hs) fun t out ht => ?_
    obtain ⟨queue, -, ht⟩ := bind_eq_ok ht
    cases ht
    rfl
  · cases hs

/-- There is memory for an event, if one is to be put in the queue. -/
def LoopState.HasMemory (l : LoopState) : Prop :=
  l.pc.allocates = true → ∃ a, l.queue.entries a = none

/-- The loop can go on. -/
theorem Invariant.exists_plain {l : LoopState} {ltr : List Label} (h : Invariant ltr l)
    (hmemory : l.HasMemory) (hhandle : ∀ a, l.pc ≠ .handle (some a)) (hret : l.pc ≠ .returned) :
    ∃ input, DirThread.plain input = true ∧ (l.step input).isSome := by
  obtain ⟨⟨as, waiting, hq⟩, -⟩ := h
  have hat := hq.atPc
  rw [funext fun input => LoopState.step.eq_def l input]
  unfold LoopState.HasMemory at hmemory
  cases hpc : l.pc with
  | whileWatched | eventCheck | checked | drain | dequeue | free => exact ⟨.go, rfl, rfl⟩
  | poll => exact ⟨.poll 0 false, rfl, rfl⟩
  | read => exact ⟨.read none, rfl, rfl⟩
  | parse buffer i count =>
    refine ⟨.go, rfl, ?_⟩
    dsimp only
    split <;> rfl
  | parseEvent buffer i count =>
    obtain ⟨a, ha⟩ := hmemory (by rw [hpc]; rfl)
    refine ⟨.malloc a, rfl, ?_⟩
    dsimp only
    rw [if_pos ha]
    rfl
  | handle event =>
    rw [hpc] at hat
    obtain ⟨a, rfl, -⟩ := hat
    exact absurd hpc (hhandle a)
  | returned => exact absurd hpc hret
  | fault e =>
    rw [hpc] at hat
    exact hat.elim

/-- The handler can be called for the entry that was taken out. -/
theorem DirInv.exists_handle (h : DirInv s₀ tr s) (path : CString) (hpc : s.pc = .processing)
    {a : Addr} (ha : s.loop.pc = .handle (some a)) :
    ∃ input, input.own = true ∧ (s.step path input).isSome := by
  obtain ⟨bytes, hbytes, hpre⟩ := h.loop.held ha
  obtain ⟨event, hevent⟩ := h.decodes (hpre.subset List.mem_concat_self)
  obtain ⟨entry, hentry, rfl⟩ := Option.map_eq_some_iff.mp hbytes
  have hheld : DirThread.heldEvent s.loop a = .ok (some event) := by
    rw [DirThread.heldEvent, Queue.deref_of_some hentry, ok_bind]
    rw [decode] at hevent
    rcases hread : readFields entry.inotEv with e | fields
    · rw [hread] at hevent
      cases hevent
    · rw [hread] at hevent
      exact congrArg Except.ok hevent
  refine ⟨.handle (fun _ => none) fun _ => [], rfl, ?_⟩
  rw [DirThread.step.eq_def]
  simp only [hpc, ha]
  rw [DirThread.handleStep, hheld]
  dsimp only
  split
  · rfl
  · rw [Option.isSome_map, LoopState.step.eq_def]
    simp only [ha, Option.isSome_some]

/-- **The thread is never stuck** before its end. -/
theorem DirInv.exists_step (h : DirInv s₀ tr s) (path : CString) (hmemory : s.loop.HasMemory)
    (hfinal : ¬ s.pc.final = true) :
    ∃ input, input.own = true ∧ (s.step path input).isSome := by
  by_cases hprocessing : s.pc = .processing
  · by_cases hret : s.loop.pc = .returned
    · refine ⟨.go, rfl, ?_⟩
      rw [DirThread.step.eq_def]
      simp only [hprocessing, hret, Option.isSome_some]
    · by_cases hhandle : ∃ a, s.loop.pc = .handle (some a)
      · obtain ⟨a, ha⟩ := hhandle
        exact h.exists_handle path hprocessing ha
      · obtain ⟨input, hplain, hsome⟩ := h.loop.exists_plain hmemory (not_exists.mp hhandle) hret
        refine ⟨.loop input, rfl, ?_⟩
        rw [DirThread.step.eq_def]
        simp only [hprocessing]
        rw [if_pos hplain, Option.isSome_map]
        exact hsome
  · rw [funext fun input => DirThread.step.eq_def path s input]
    cases hpc : s.pc with
    | opening => exact ⟨.opened 0, rfl, rfl⟩
    | creating => exact ⟨.created true, rfl, rfl⟩
    | watching =>
      refine ⟨.watched 0, rfl, ?_⟩
      dsimp only
      split <;> rfl
    | processing => exact absurd hpc hprocessing
    | closing => exact ⟨.closed 0, rfl, rfl⟩
    | destroying => exact ⟨.go, rfl, rfl⟩
    | exited | returned | fault =>
      rw [hpc] at hfinal
      exact absurd rfl hfinal

/-- The memory that a step needs is there for the next one, too. -/
theorem DirInv.hasMemory_step (h : DirInv s₀ tr s) {own : Bool}
    (hclear : s.loop.keepRunning = false) (hmemory : s.loop.HasMemory)
    (hs : DirStep path s own s' out) : s'.loop.HasMemory := by
  have hnone : ∀ {l : LoopState}, l.pc.allocates = false → l.HasMemory :=
    fun hno hyes => absurd (hno.symm.trans hyes) Bool.false_ne_true
  cases hs with
  | looped hpc hplain hl =>
    refine hnone (allocates_step hclear hl ?_)
    rintro rfl
    cases hplain
  | delivered _ hl => exact hnone (allocates_step hclear hl nofun)
  | handled _ _ _ _ _ _ hl => exact hnone (allocates_step hclear hl nofun)
  | destroying hpc =>
    have hplace := h.place
    rw [Place, hpc] at hplace
    have hno : s.loop.pc.allocates = false := by
      have hout := hplace.1
      revert hout
      cases s.loop.pc <;> simp [Pc.outside, Pc.allocates]
    unfold DirThread.destroyStep
    rw [h.loop.head_eq_none hplace.1]
    split <;> exact hnone hno
  | _ => exact hmemory

/-! ### The thread stops -/

/-- The flag is cleared, and the memory for the event at hand is there. -/
structure Stopping (s₀ : State) (tr : List DirLabel) (s : DirThread) : Prop where
  inv : DirInv s₀ tr s
  cleared : s.loop.keepRunning = false
  memory : s.loop.HasMemory

theorem Stopping.step (h : Stopping s₀ tr s) {own : Bool} (hs : DirStep path s own s' out) :
    Stopping s₀ (tr ++ out) s' where
  inv := h.inv.step hs
  cleared := (h.inv.rank_step h.cleared hs).1
  memory := h.inv.hasMemory_step h.cleared h.memory hs

/-- **SIGINT ends the thread.**  From any state of any run in which the flag
is cleared, the thread makes at most four steps for each event that is still
queued and eleven more, and it can be run to its end. -/
theorem pthread_on_dir_run_stops {entries : Entries (List UInt8)} {inputs : List DirInput}
    (h : (DirThread.start entries s₀).run path inputs = some (s, tr))
    (hclear : s.loop.keepRunning = false) (hmemory : s.loop.HasMemory) :
    (∀ inputs' s' tr', s.run path inputs' = some (s', tr') →
      inputs'.countP DirInput.own ≤ 4 * pending (loopTrace tr) + 11) ∧
    ∃ inputs' s' tr', s.run path inputs' = some (s', tr') ∧ s'.pc.final = true := by
  have hstop : Stopping s₀ tr s := ⟨(DirInv.run h).1, hclear, hmemory⟩
  refine ⟨fun inputs' s' tr' hrun => ?_, ?_⟩
  · have hle := Machine.countP_le_rank (P := Stopping s₀) (fun tr s => s.rank tr) DirInput.own
      (fun hp hs => ⟨hp.step (step_cases hs), (hp.inv.rank_step hp.cleared (step_cases hs)).2⟩)
      hstop hrun
    have hmax := rank_le tr s
    omega
  · obtain ⟨inputs', s', tr', -, hrun, hfinal⟩ := Machine.exists_run (P := Stopping s₀)
      (fun tr s => s.rank tr) DirInput.own (fun s => s.pc.final = true)
      (fun {tr s} hp hfinal => by
        obtain ⟨input, hown, hsome⟩ := hp.inv.exists_step path hp.memory hfinal
        obtain ⟨⟨s', out⟩, hs⟩ := Option.isSome_iff_exists.mp hsome
        have hlt := (hp.inv.rank_step hp.cleared (step_cases hs)).2
        rw [hown, if_pos rfl] at hlt
        exact ⟨input, s', out, hown, hs, hp.step (step_cases hs), hlt⟩) hstop
    exact ⟨inputs', s', tr', hrun, hfinal⟩

/-- The signal comes behind the `read`. -/
theorem stops_oneFile :
    ∃ s tr, threadW.run (lit "/backup") (oneFile.take 8 ++ [.signal]) = some (s, tr) ∧
      (∀ inputs' s' tr', s.run (lit "/backup") inputs' = some (s', tr') →
        inputs'.countP DirInput.own ≤ 4 * pending (loopTrace tr) + 11) ∧
      ∃ inputs' s' tr', s.run (lit "/backup") inputs' = some (s', tr') ∧ s'.pc.final = true := by
  have hstate : (threadW.run (lit "/backup") (oneFile.take 8 ++ [.signal])).map
      (fun r => (r.1.loop.keepRunning, r.1.loop.pc.allocates)) = some (false, false) := rfl
  obtain ⟨⟨s, tr⟩, h, hs⟩ := Option.map_eq_some_iff.mp hstate
  obtain ⟨hclear, hno⟩ := Prod.mk.inj hs
  exact ⟨s, tr, h, pthread_on_dir_run_stops h hclear fun hyes => absurd (hno.symm.trans hyes) nofun⟩

end SecuritySystem.Backup
