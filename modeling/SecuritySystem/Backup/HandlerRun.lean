/-
SecuritySystem/Backup/HandlerRun.lean

Runs of the event handler, and the directory streams they leave open.

The handler opens a stream for each entry of the chain that it looks at, and
closes none.  So the number of open streams grows by the number of entries
that were opened, on every path through the handler (`handleEvent_openStreams`),
and a run keeps it only if no event of it opens a stream
(`streamsBalanced_iff`).
-/
import SecuritySystem.Backup.HandlerSafety

namespace SecuritySystem.Backup

open CMem CString

variable {env : Env} {event : InotifyEvent} {s : State} {f : CString} {chain : List CString}

/-- Calls of `handle_event`, each with the surroundings it finds; a fault ends
the run. -/
def handleEvents : List (Env × InotifyEvent) → State → State × Option Fault
  | [], s => (s, none)
  | (env, event) :: events, s =>
    match handleEvent env event s with
    | (s, some e) => (s, some e)
    | (s, none) => handleEvents events s

/-! ### What the handler leaves alone -/

/-- The part behind the search changes neither the streams nor the argument. -/
theorem handleNamed_frame (env : Env) (event : InotifyEvent) (f : CString) (s : State) :
    (handleNamed env event f s).1.openStreams = s.openStreams ∧
      (handleNamed env event f s).1.arg = s.arg := by
  have hbackup : ∀ path s, (backupFsMakeBackup env path f s).1.openStreams = s.openStreams ∧
      (backupFsMakeBackup env path f s).1.arg = s.arg := by
    intro path s
    unfold backupFsMakeBackup
    dsimp only
    split <;> exact ⟨rfl, rfl⟩
  have hmake : ∀ s, (makeBackup env f s).1.openStreams = s.openStreams ∧
      (makeBackup env f s).1.arg = s.arg := by
    intro s
    unfold makeBackup
    split
    · exact ⟨rfl, rfl⟩
    · exact hbackup _ s
  unfold handleNamed
  split
  · exact ⟨rfl, rfl⟩
  · dsimp only
    split <;> exact ⟨rfl, rfl⟩
  · split <;> exact ⟨rfl, rfl⟩
  · split
    · exact ⟨rfl, rfl⟩
    · exact hmake (s.log _)

/-- The streams that an event opens, for the chain of the table. -/
def streamsOpened (env : Env) (event : InotifyEvent) (chain : List CString) : ℕ :=
  if event.mask &&& IN_ISDIR ≠ 0 then 0
  else
    match event.name with
    | none => 0
    | some f => if f.bytes.head? = some HELPERS_DOT then 0 else (searchDirectory env f chain).2

/-- No path through the handler closes a stream. -/
theorem handleEvent_openStreams (env : Env) (event : InotifyEvent) (s : State) :
    (handleEvent env event s).1.openStreams =
      s.openStreams + streamsOpened env event (chainValues env s.arg.hashTable) := by
  unfold handleEvent streamsOpened
  split
  · rfl
  · rcases event.name with - | f
    · rfl
    · dsimp only
      split
      · rfl
      · split
        · rfl
        · exact (handleNamed_frame env event f _).1
        · exact (handleNamed_frame env event f _).1

/-- The handler behind a search that fails. -/
theorem handleEvent_unopened (env : Env) (event : InotifyEvent) (s : State)
    (hdir : event.mask &&& IN_ISDIR = 0) (hname : event.name = some f)
    (hdot : f.bytes.head? ≠ some HELPERS_DOT) {d : CString} {n : ℕ}
    (h : searchDirectory env f (chainValues env s.arg.hashTable) = (.unopened d, n)) :
    handleEvent env event s = ({ s with openStreams := s.openStreams + n }, none) := by
  unfold handleEvent
  rw [if_neg (not_not.mpr hdir), hname]
  dsimp only
  rw [if_neg hdot, h]

/-- The handler behind a search that finds the file. -/
theorem handleEvent_found (env : Env) (event : InotifyEvent) (s : State)
    (hdir : event.mask &&& IN_ISDIR = 0) (hname : event.name = some f)
    (hdot : f.bytes.head? ≠ some HELPERS_DOT) {d : CString} {n : ℕ}
    (h : searchDirectory env f (chainValues env s.arg.hashTable) = (.found d, n)) :
    handleEvent env event s = handleNamed env event f
      { s with openStreams := s.openStreams + n, arg.pathToDir := d } := by
  unfold handleEvent
  rw [if_neg (not_not.mpr hdir), hname]
  dsimp only
  rw [if_neg hdot, h]

/-- The table of the argument is never changed. -/
theorem handleEvent_hashTable (env : Env) (event : InotifyEvent) (s : State) :
    (handleEvent env event s).1.arg.hashTable = s.arg.hashTable := by
  unfold handleEvent
  split
  · rfl
  · rcases event.name with - | f
    · rfl
    · dsimp only
      split
      · rfl
      · split
        · rfl
        · rw [(handleNamed_frame env event f _).2]
        · rw [(handleNamed_frame env event f _).2]

/-! ### Balance -/

/-- The event opens no stream: it is about a directory, its name begins with a
dot, or there is no entry in the chain, or the first one cannot be opened. -/
def OpensNothing (env : Env) (event : InotifyEvent) (chain : List CString) : Prop :=
  event.mask &&& IN_ISDIR = 0 → ∀ f, event.name = some f →
    f.bytes.head? ≠ some HELPERS_DOT → ∀ d ∈ chain.head?, env.opendir d = none

theorem searchDirectory_streams_eq_zero :
    (searchDirectory env f chain).2 = 0 ↔ ∀ d ∈ chain.head?, env.opendir d = none := by
  cases chain with
  | nil => simp [searchDirectory]
  | cons hi rest =>
    unfold searchDirectory
    rcases hopen : env.opendir hi with - | dr
    · simp [hopen]
    · simp only [List.head?_cons, Option.mem_some_iff, forall_eq', hopen, reduceCtorEq, iff_false]
      split <;> simp

theorem streamsOpened_eq_zero :
    streamsOpened env event chain = 0 ↔ OpensNothing env event chain := by
  unfold streamsOpened OpensNothing
  by_cases hdir : event.mask &&& IN_ISDIR = 0
  · rw [if_neg (not_not.mpr hdir)]
    rcases event.name with - | f
    · simp
    · dsimp only
      by_cases hdot : f.bytes.head? = some HELPERS_DOT
      · rw [if_pos hdot]
        refine iff_of_true rfl fun _ g hg hne => ?_
        obtain rfl := Option.some.inj hg
        exact absurd hdot hne
      · rw [if_neg hdot, searchDirectory_streams_eq_zero]
        constructor
        · intro h _ g hg _
          exact h
        · exact fun h => h hdir f rfl hdot
  · rw [if_pos hdir]
    exact iff_of_true rfl fun h => absurd h hdir

/-- A run whose calls all return opens the streams of all of its events. -/
theorem handleEvents_openStreams {events : List (Env × InotifyEvent)} {s : State}
    (h : (handleEvents events s).2 = none) :
    (handleEvents events s).1.openStreams = s.openStreams +
      (events.map fun e => streamsOpened e.1 e.2 (chainValues e.1 s.arg.hashTable)).sum := by
  induction events generalizing s with
  | nil => rfl
  | cons e events ih =>
    obtain ⟨env, event⟩ := e
    have hstreams := handleEvent_openStreams env event s
    have htable := handleEvent_hashTable env event s
    unfold handleEvents at h ⊢
    rcases he : handleEvent env event s with ⟨t, - | fault⟩
    · rw [he] at h hstreams htable
      rw [List.map_cons, List.sum_cons, ← Nat.add_assoc, ← hstreams]
      show (handleEvents events t).1.openStreams = t.openStreams + _
      rw [ih h, htable]
    · rw [he] at h
      cases h

/-- The calls before a call that returns have returned. -/
theorem handleEvents_take {events : List (Env × InotifyEvent)} {s : State}
    (h : (handleEvents events s).2 = none) (k : ℕ) : (handleEvents (events.take k) s).2 = none := by
  induction events generalizing s k with
  | nil => rw [List.take_nil]; rfl
  | cons e events ih =>
    obtain ⟨env, event⟩ := e
    cases k with
    | zero => rfl
    | succ k =>
      unfold handleEvents at h
      rw [List.take_succ_cons]
      unfold handleEvents
      rcases he : handleEvent env event s with ⟨t, - | fault⟩
      · rw [he] at h
        exact ih h k
      · rw [he] at h
        cases h

/-- After each event of the run the number of open streams is what it was at
the start. -/
def StreamsBalanced (events : List (Env × InotifyEvent)) (s : State) : Prop :=
  ∀ k, (handleEvents (events.take k) s).1.openStreams = s.openStreams

/-- **Exactly when the streams are balanced**: no event of the run opens
one. -/
theorem streamsBalanced_iff {events : List (Env × InotifyEvent)} {s : State}
    (h : (handleEvents events s).2 = none) :
    StreamsBalanced events s ↔
      ∀ e ∈ events, OpensNothing e.1 e.2 (chainValues e.1 s.arg.hashTable) := by
  constructor
  · intro hall e he
    have hend := hall events.length
    rw [List.take_length, handleEvents_openStreams h] at hend
    have hzero := (Nat.add_eq_left).mp hend
    rw [← streamsOpened_eq_zero]
    exact List.sum_eq_zero_iff_forall_eq_nat.mp hzero _ (List.mem_map_of_mem he)
  · intro hall k
    rw [handleEvents_openStreams (handleEvents_take h k)]
    refine Nat.add_eq_left.mpr (List.sum_eq_zero_iff_forall_eq_nat.mpr fun n hn => ?_)
    obtain ⟨e, he, rfl⟩ := List.mem_map.mp hn
    exact streamsOpened_eq_zero.mpr (hall e (List.mem_of_mem_take he))

/-- Both ends of the search for "x" let the handler return. -/
theorem createX_returns {opened : List CString} (ho : opened = [] ∨ opened = [dirA, dirB])
    (hchain : chainValues (envX opened) s.arg.hashTable = [dirB, dirA]) :
    (handleEvent (envX opened) createX s).2 = none := by
  rcases ho with rfl | rfl
  · rw [handleEvent_unopened (envX []) createX s (by decide) rfl (by decide) (d := dirB) (n := 0)
      (by rw [hchain]; rfl)]
  · exact congrArg Prod.snd (handleEvent_found (envX [dirA, dirB]) createX s (by decide) rfl
      (by decide) (d := dirB) (n := 1) (by rw [hchain]; rfl))

/-- Three events for "x": "b" is there only at the second one, which finds the
file in it, so the run is not balanced. -/
theorem streamsBalanced_iff_createX :
    let events := [(envX [], createX), (envX [dirA, dirB], createX), (envX [], createX)]
    ∃ s : State, (StreamsBalanced events s ↔ ∀ e ∈ events,
      OpensNothing e.1 e.2 (chainValues e.1 s.arg.hashTable)) ∧ ¬ StreamsBalanced events s := by
  intro events
  obtain ⟨s, -, -, hchain⟩ := exists_chain []
  -- every state of the run has the same chain
  have hstep : ∀ (opened : List CString) (s : State), opened = [] ∨ opened = [dirA, dirB] →
      chainValues (envX []) s.arg.hashTable = [dirB, dirA] → ∃ t,
        handleEvent (envX opened) createX s = (t, none) ∧
          chainValues (envX []) t.arg.hashTable = [dirB, dirA] := by
    intro opened s ho hchain
    have hreturns := createX_returns ho hchain
    have htable := handleEvent_hashTable (envX opened) createX s
    rcases he : handleEvent (envX opened) createX s with ⟨t, fault⟩
    rw [he] at hreturns htable
    obtain rfl : fault = none := hreturns
    exact ⟨t, rfl, by rw [show t.arg.hashTable = _ from htable, hchain]⟩
  obtain ⟨t₁, h₁, hchain₁⟩ := hstep [] s (.inl rfl) hchain
  obtain ⟨t₂, h₂, hchain₂⟩ := hstep [dirA, dirB] t₁ (.inr rfl) hchain₁
  obtain ⟨t₃, h₃, -⟩ := hstep [] t₂ (.inl rfl) hchain₂
  have hreturns : (handleEvents events s).2 = none := by
    simp only [events, handleEvents, h₁, h₂, h₃]
  have hiff := streamsBalanced_iff hreturns
  refine ⟨s, hiff, fun hbalanced => ?_⟩
  have hfirst : dirB ∈ (chainValues (envX [dirA, dirB]) s.arg.hashTable).head? :=
    congrArg List.head? hchain
  have hopens := hiff.mp hbalanced (envX [dirA, dirB], createX) (by simp [events])
    (by decide) fileX rfl (by decide) dirB hfirst
  exact absurd hopens (by decide)

/-- The event for "x" in "b" finds the file in the first directory it opens,
and the stream stays open. -/
theorem not_streamsBalanced_createX :
    ¬ ∀ (events : List (Env × InotifyEvent)) (s : State), (handleEvents events s).2 = none →
      StreamsBalanced events s := by
  intro hall
  obtain ⟨s, -, -, hchain⟩ := exists_chain [dirA, dirB]
  have hreturns := createX_returns (.inr rfl) hchain
  have hopen := handleEvent_openStreams (envX [dirA, dirB]) createX s
  rcases he : handleEvent (envX [dirA, dirB]) createX s with ⟨t, fault⟩
  rw [he] at hreturns
  obtain rfl : fault = none := hreturns
  have hrun : handleEvents [(envX [dirA, dirB], createX)] s = (t, none) := by
    unfold handleEvents
    rw [he]
    rfl
  rw [he, hchain] at hopen
  have hbalanced := hall _ s (congrArg Prod.snd hrun) 1
  rw [List.take_succ_cons, List.take_zero, hrun] at hbalanced
  have hone : t.openStreams = s.openStreams + 1 := hopen
  have hsame : t.openStreams = s.openStreams := hbalanced
  omega

end SecuritySystem.Backup
