/-
SecuritySystem/Backup/ServiceSafety.lean

What the backup service does, in every run and every interleaving.

A run of the service is a run of each of its threads (`projects`), so what is
proved of one thread alone holds here, too.  What the threads have in common
goes together (`Linked`): the flag, the table, and the end of a thread, which
only its own return brings about.  From this come the accounts of a run
(`start_accounts`): what is freed, which thread can still run behind that, and
what the return code says.
-/
import SecuritySystem.Backup.ConfiguredBackup
import SecuritySystem.Backup.Service

namespace SecuritySystem.Backup

open CMem CString FileTree

variable {env : StartEnv} {s₀ s s' t : Service} {input : ServiceInput}
variable {inputs inputs' : List ServiceInput} {tr out outs : List ServiceLabel}

/-! ### Traces -/

@[simp] theorem mainTrace_append (tr out : List ServiceLabel) :
    mainTrace (tr ++ out) = mainTrace tr ++ mainTrace out := List.filterMap_append

@[simp] theorem dirTrace_append (tr out : List ServiceLabel) :
    dirTrace (tr ++ out) = dirTrace tr ++ dirTrace out := List.filterMap_append

@[simp] theorem scanInputs_append (tr out : List ServiceLabel) :
    scanInputs (tr ++ out) = scanInputs tr ++ scanInputs out := List.filterMap_append

@[simp] theorem traces_main (ls : List ForkJoin.Label) :
    mainTrace (ls.map .main) = ls ∧ dirTrace (ls.map .main) = [] ∧
      scanInputs (ls.map .main) = [] := by
  induction ls with
  | nil => exact ⟨rfl, rfl, rfl⟩
  | cons l ls ih =>
    obtain ⟨hm, hd, hs⟩ := ih
    exact ⟨congrArg (l :: ·) hm, hd, hs⟩

@[simp] theorem traces_dir (ls : List DirLabel) :
    mainTrace (ls.map .dir) = [] ∧ dirTrace (ls.map .dir) = ls ∧ scanInputs (ls.map .dir) = [] := by
  induction ls with
  | nil => exact ⟨rfl, rfl, rfl⟩
  | cons l ls ih =>
    obtain ⟨hm, hd, hs⟩ := ih
    exact ⟨hm, congrArg (l :: ·) hd, hs⟩

/-! ### What a step does -/

/-- What a step of the scan finds. -/
def Service.found (s : Service) : ScanInput := ⟨s.main.flag, s.dir.handler.watchedItems⟩

/-- The step of the event thread that takes over what the scan has left. -/
def takeOver (t : ScanThread) : DirInput :=
  .scanned t.state.arg.hashTable t.state.watchedItems t.state.logged

/-- Everything that a step of the service can do. -/
inductive ServiceStep (env : StartEnv) (s : Service) :
    ServiceInput → Service → List ServiceLabel → Prop
  | main {input : ForkJoin.Input} {m : ForkJoin.State} {ls : List ForkJoin.Label} :
    input.own = true → startPlan.step s.main input = some (m, ls) →
    ServiceStep env s (.main input) { s with main := m } (ls.map .main)
  | ignored : env.ignored = true → ServiceStep env s .signal s []
  | signal {d : DirThread} {ls : List DirLabel} : env.ignored = false →
    s.dir.step s.pathToBackup .signal = some (d, ls) →
    ServiceStep env s .signal { s with main.flag := false, dir := d } (ls.map .dir)
  | scan {t : ScanThread} {d : DirThread} {ls : List DirLabel} :
    s.main.workers[backupLoop]? = some .running → s.scan.step env.scan s.found = some t →
    s.dir.step s.pathToBackup (takeOver t) = some (d, ls) →
    ServiceStep env s .scan { s with scan := t, dir := d }
      (.main (.used backupLoop s.main.freed) :: .scan s.found :: ls.map .dir)
  | scanEnds {rc : ℤ} {m : ForkJoin.State} {ls : List ForkJoin.Label} :
    s.scan.pc = .returned rc → startPlan.step s.main (.finish backupLoop) = some (m, ls) →
    ServiceStep env s .scanEnds { s with main := m } (ls.map .main)
  | dir {input : DirInput} {d : DirThread} {ls : List DirLabel} : input.own = true →
    s.main.workers[generalLoop]? = some .running →
    s.dir.step s.pathToBackup input = some (d, ls) →
    ServiceStep env s (.dir input) { s with dir := d }
      (.main (.used generalLoop s.main.freed) :: ls.map .dir)
  | dirEnds {m : ForkJoin.State} {ls : List ForkJoin.Label} : s.dir.pc = .returned →
    startPlan.step s.main (.finish generalLoop) = some (m, ls) →
    ServiceStep env s .dirEnds { s with main := m } (ls.map .main)

theorem use_cases {i : ℕ} {m : ForkJoin.State × List ForkJoin.Label}
    (h : startPlan.step s.main (.use i) = some m) :
    s.main.workers[i]? = some .running ∧ m = (s.main, [.used i s.main.freed]) := by
  simp only [ForkJoin.Plan.step] at h
  split at h
  · next hw => exact ⟨hw, (Option.some.inj h).symm⟩
  · cases h

theorem mainStep_cases {input : ForkJoin.Input} (h : s.mainStep input = some (s', out)) :
    ∃ m ls, startPlan.step s.main input = some (m, ls) ∧ s' = { s with main := m } ∧
      out = ls.map .main := by
  obtain ⟨⟨m, ls⟩, hm, he⟩ := Option.map_eq_some_iff.mp h
  obtain ⟨rfl, rfl⟩ := Prod.mk.inj he
  exact ⟨m, ls, hm, rfl, rfl⟩

theorem serviceStep_cases (h : s.step env input = some (s', out)) :
    s.dead = false ∧ ServiceStep env s input s' out := by
  unfold Service.step at h
  split at h
  · cases h
  next hdead =>
  refine ⟨Bool.eq_false_iff.mpr hdead, ?_⟩
  cases input with
  | main input =>
    simp only at h
    split at h
    · next hown =>
      obtain ⟨m, ls, hm, rfl, rfl⟩ := mainStep_cases h
      exact .main hown hm
    · cases h
  | signal =>
    simp only [Service.signalStep] at h
    split at h
    · next hignored =>
      cases h
      exact .ignored hignored
    · next hignored =>
      obtain ⟨m, hm, h⟩ := Option.bind_eq_some_iff.mp h
      obtain ⟨d, hd, h⟩ := Option.bind_eq_some_iff.mp h
      obtain rfl := Option.some.inj hm
      cases h
      exact .signal (Bool.eq_false_iff.mpr hignored) hd
  | scan =>
    simp only [Service.scanStep] at h
    obtain ⟨m, hm, h⟩ := Option.bind_eq_some_iff.mp h
    obtain ⟨t, ht, h⟩ := Option.bind_eq_some_iff.mp h
    obtain ⟨d, hd, h⟩ := Option.bind_eq_some_iff.mp h
    obtain ⟨hw, rfl⟩ := use_cases hm
    cases h
    exact .scan hw ht hd
  | scanEnds =>
    simp only at h
    split at h
    · next rc hpc =>
      obtain ⟨m, ls, hm, rfl, rfl⟩ := mainStep_cases h
      exact .scanEnds hpc hm
    · cases h
  | dir input =>
    simp only at h
    split at h
    · next hown =>
      simp only [Service.dirStep] at h
      obtain ⟨m, hm, h⟩ := Option.bind_eq_some_iff.mp h
      obtain ⟨d, hd, h⟩ := Option.bind_eq_some_iff.mp h
      obtain ⟨hw, rfl⟩ := use_cases hm
      cases h
      exact .dir hown hw hd
    · cases h
  | dirEnds =>
    simp only at h
    split at h
    · next hpc =>
      obtain ⟨m, ls, hm, rfl, rfl⟩ := mainStep_cases h
      exact .dirEnds hpc hm
    · cases h

/-! ### The threads of a run -/

/-- From `s₀` to `s` each thread has made a run of its own; the inputs of the
service tell how many steps of its own it took. -/
structure Projects (env : StartEnv) (s₀ s : Service) (inputs : List ServiceInput)
    (tr : List ServiceLabel) : Prop where
  main : ∃ is, startPlan.run s₀.main is = some (s.main, mainTrace tr) ∧
    is.countP ForkJoin.Input.own = inputs.countP ServiceInput.ofMain
  scan : s₀.scan.run env.scan (scanInputs tr) = some s.scan ∧
    (scanInputs tr).length = inputs.countP ServiceInput.ofScan
  dir : ∃ is, s₀.dir.run s₀.pathToBackup is = some (s.dir, dirTrace tr) ∧
    is.countP DirInput.own = inputs.countP ServiceInput.ofDir
  path : s.pathToBackup = s₀.pathToBackup

theorem Projects.refl (env : StartEnv) (s : Service) : Projects env s s [] [] :=
  ⟨⟨[], rfl, rfl⟩, ⟨rfl, rfl⟩, ⟨[], rfl, rfl⟩, rfl⟩

theorem Projects.trans (h : Projects env s₀ t inputs tr) (h' : Projects env t s inputs' out) :
    Projects env s₀ s (inputs ++ inputs') (tr ++ out) := by
  obtain ⟨is, hm, hmc⟩ := h.main
  obtain ⟨is', hm', hmc'⟩ := h'.main
  obtain ⟨ds, hd, hdc⟩ := h.dir
  obtain ⟨ds', hd', hdc'⟩ := h'.dir
  rw [h.path] at hd'
  refine ⟨⟨is ++ is', ?_, ?_⟩, ⟨?_, ?_⟩, ⟨ds ++ ds', ?_, ?_⟩, h'.path.trans h.path⟩
  · rw [mainTrace_append]
    exact Machine.run_append_iff.mpr ⟨_, _, _, hm, hm', rfl⟩
  · rw [List.countP_append, List.countP_append, hmc, hmc']
  · rw [scanInputs_append, ScanThread.run, List.foldlM_append]
    exact Option.bind_eq_some_iff.mpr ⟨t.scan, h.scan.1, h'.scan.1⟩
  · rw [scanInputs_append, List.length_append, List.countP_append, h.scan.2, h'.scan.2]
  · rw [dirTrace_append]
    exact Machine.run_append_iff.mpr ⟨_, _, _, hd, hd', rfl⟩
  · rw [List.countP_append, List.countP_append, hdc, hdc']

theorem use_run {m : ForkJoin.State} {i : ℕ} (hw : m.workers[i]? = some .running) :
    startPlan.run m [.use i] = some (m, [.used i m.freed]) := by
  apply Machine.run_single
  rw [ForkJoin.Plan.step, if_pos hw]

/-- The end of a worker is a step of the main machine alone. -/
theorem projects_ends {i : ℕ} {m : ForkJoin.State} {ls : List ForkJoin.Label}
    (hm : startPlan.step s.main (.finish i) = some (m, ls)) (input : ServiceInput)
    (hmain : input.ofMain = false) (hscan : input.ofScan = false) (hdir : input.ofDir = false) :
    Projects env s { s with main := m } [input] (ls.map .main) := by
  refine ⟨⟨[.finish i], ?_, ?_⟩, ⟨?_, ?_⟩, ⟨[], ?_, ?_⟩, rfl⟩
  · rw [(traces_main _).1]
    exact Machine.run_single hm
  · rw [List.countP_singleton, List.countP_singleton, hmain]
    rfl
  · rw [(traces_main _).2.2]
    rfl
  · rw [(traces_main _).2.2, List.countP_singleton, hscan]
    rfl
  · rw [(traces_main _).2.1]
    rfl
  · rw [List.countP_singleton, hdir]
    rfl

theorem ServiceStep.projects (hs : ServiceStep env s input s' out) :
    Projects env s s' [input] out := by
  cases hs with
  | @main input _ _ hown hm =>
    refine ⟨⟨[input], ?_, ?_⟩, ⟨?_, ?_⟩, ⟨[], ?_, rfl⟩, rfl⟩
    · rw [(traces_main _).1]
      exact Machine.run_single hm
    · rw [List.countP_singleton, hown]
      rfl
    · rw [(traces_main _).2.2]
      rfl
    · rw [(traces_main _).2.2]
      rfl
    · rw [(traces_main _).2.1]
      rfl
  | ignored => exact ⟨⟨[], rfl, rfl⟩, ⟨rfl, rfl⟩, ⟨[], rfl, rfl⟩, rfl⟩
  | signal _ hd =>
    refine ⟨⟨[.signal], ?_, rfl⟩, ⟨?_, ?_⟩, ⟨[.signal], ?_, rfl⟩, rfl⟩
    · rw [(traces_dir _).1]
      rfl
    · rw [(traces_dir _).2.2]
      rfl
    · rw [(traces_dir _).2.2]
      rfl
    · rw [(traces_dir _).2.1]
      exact Machine.run_single hd
  | @scan t _ _ hw ht hd =>
    refine ⟨⟨[.use backupLoop], ?_, rfl⟩, ⟨?_, ?_⟩, ⟨[takeOver t], ?_, rfl⟩, rfl⟩
    · show startPlan.run s.main _ = some (s.main, .used _ _ :: mainTrace (List.map .dir _))
      rw [(traces_dir _).1]
      exact use_run hw
    · show s.scan.run env.scan (s.found :: scanInputs (List.map .dir _)) = _
      rw [(traces_dir _).2.2]
      exact run_cons_iff.mpr ⟨_, ht, rfl⟩
    · show (s.found :: scanInputs (List.map .dir _)).length = _
      rw [(traces_dir _).2.2]
      rfl
    · show DirThread.run _ _ _ = some (_, dirTrace (List.map .dir _))
      rw [(traces_dir _).2.1]
      exact Machine.run_single hd
  | scanEnds _ hm => exact projects_ends hm _ rfl rfl rfl
  | dirEnds _ hm => exact projects_ends hm _ rfl rfl rfl
  | @dir input _ _ hown hw hd =>
    refine ⟨⟨[.use generalLoop], ?_, rfl⟩, ⟨?_, ?_⟩, ⟨[input], ?_, ?_⟩, rfl⟩
    · show startPlan.run s.main _ = some (s.main, .used _ _ :: mainTrace (List.map .dir _))
      rw [(traces_dir _).1]
      exact use_run hw
    · show s.scan.run env.scan (scanInputs (List.map .dir _)) = _
      rw [(traces_dir _).2.2]
      rfl
    · show (scanInputs (List.map .dir _)).length = _
      rw [(traces_dir _).2.2]
      rfl
    · show DirThread.run _ _ _ = some (_, dirTrace (List.map .dir _))
      rw [(traces_dir _).2.1]
      exact Machine.run_single hd
    · rw [List.countP_singleton, hown]
      rfl

/-- **A run of the service is a run of each of its threads.** -/
theorem projects (h : s₀.run env inputs = some (s, tr)) : Projects env s₀ s inputs tr := by
  induction inputs generalizing s₀ tr with
  | nil =>
    obtain ⟨rfl, rfl⟩ := Prod.mk.inj (Option.some.inj h)
    exact .refl env s₀
  | cons input inputs ih =>
    obtain ⟨t, out, outs, ht, hrest, rfl⟩ := Machine.run_cons_iff.mp h
    exact (serviceStep_cases ht).2.projects.trans (ih hrest)

/-! ### What the threads have in common -/

/-- The flag is never set again, and only a signal that is not ignored clears
it. -/
theorem ServiceStep.flag (hs : ServiceStep env s input s' out) :
    s'.main.flag = s.main.flag ∨ env.ignored = false ∧ s'.main.flag = false := by
  cases hs with
  | main hown hm =>
    have hmain := ForkJoin.step_cases hm
    rw [hown] at hmain
    exact .inl (ForkJoin.flag_of_own hmain)
  | signal hno => exact .inr ⟨hno, rfl⟩
  | scanEnds _ hm | dirEnds _ hm =>
    obtain ⟨rfl, -⟩ := ForkJoin.finish_cases hm
    exact .inl rfl
  | ignored | scan | dir => exact .inl rfl

/-- Only the signal clears the flag of the event loop. -/
theorem keepRunning_of_loop {l l' : LoopState} {input : Input} {ls : List Label}
    (h : l.step input = some (l', ls)) (hne : input ≠ .signal) :
    l'.keepRunning = l.keepRunning := by
  have hfault : ∀ r : Except Fault (LoopState × List Label),
      (∀ q, r = .ok q → q.1.keepRunning = l.keepRunning) →
      some (l.orFault r) = some (l', ls) → l'.keepRunning = l.keepRunning := by
    rintro (e | q) hq he
    · cases he
      rfl
    · obtain rfl := Option.some.inj he
      exact hq _ rfl
  rw [LoopState.step.eq_def] at h
  split at h
  · exact absurd rfl hne
  case h_7 =>
    split at h
    · cases h
      rfl
    · cases h
  case h_8 =>
    split at h <;> cases h <;> rfl
  case h_9 =>
    split at h
    · refine hfault _ (fun q hq => ?_) h
      obtain ⟨size, -, hq⟩ := bind_eq_ok hq
      obtain ⟨bytes, -, hq⟩ := bind_eq_ok hq
      obtain ⟨queue, -, hq⟩ := bind_eq_ok hq
      cases hq
      rfl
    · cases h
  case h_11 =>
    refine hfault _ (fun q hq => ?_) h
    obtain ⟨r, -, hq⟩ := bind_eq_ok hq
    cases hq
    rfl
  case h_12 =>
    refine hfault _ (fun q hq => ?_) h
    unfold LoopState.handleStep at hq
    split at hq
    · cases hq
    · obtain ⟨e, -, hq⟩ := bind_eq_ok hq
      cases hq
      rfl
  case h_13 =>
    refine hfault _ (fun q hq => ?_) h
    obtain ⟨queue, -, hq⟩ := bind_eq_ok hq
    cases hq
    rfl
  case h_14 => cases h
  all_goals
    cases h
    rfl

/-- A step of its own changes neither the flag nor the table. -/
theorem DirStep.frame {path : CString} {d d' : DirThread} {ls : List DirLabel}
    (hs : DirStep path d true d' ls) :
    d'.loop.keepRunning = d.loop.keepRunning ∧
      d'.handler.arg.hashTable = d.handler.arg.hashTable := by
  cases hs with
  | looped _ hplain hl =>
    refine ⟨keepRunning_of_loop hl ?_, rfl⟩
    rintro rfl
    cases hplain
  | delivered _ hl => exact ⟨keepRunning_of_loop hl (by simp), rfl⟩
  | @faulted a env event t e _ _ _ _ _ ht =>
    have htable := handleEvent_hashTable env event d.handler
    rw [ht] at htable
    exact ⟨rfl, htable⟩
  | @handled a env event t l ls _ _ _ _ _ ht hl =>
    have htable := handleEvent_hashTable env event d.handler
    rw [ht] at htable
    exact ⟨keepRunning_of_loop hl (by simp), htable⟩
  | destroying =>
    unfold DirThread.destroyStep
    split
    · split
      · exact ⟨rfl, rfl⟩
      · split <;> exact ⟨rfl, rfl⟩
    · exact ⟨rfl, rfl⟩
  | _ => exact ⟨rfl, rfl⟩

/-- What goes together in the three threads. -/
structure Linked (s : Service) : Prop where
  flag : s.main.flag = s.dir.loop.keepRunning
  table : s.dir.handler.arg.hashTable = s.scan.state.arg.hashTable
  scanEnd : s.main.stopped backupLoop → ∃ rc, s.scan.pc = .returned rc
  dirEnd : s.main.stopped generalLoop → s.dir.pc = .returned

theorem linked_begin (path : CString) (arg : ThreadArgument) : Linked (.begin path arg) where
  flag := rfl
  table := rfl
  scanEnd h := by simp [Service.begin, ForkJoin.State.stopped, ForkJoin.Plan.start] at h
  dirEnd h := by simp [Service.begin, ForkJoin.State.stopped, ForkJoin.Plan.start] at h

theorem not_stopped {m : ForkJoin.State} {i : ℕ} (hw : m.workers[i]? = some .running) :
    ¬ m.stopped i := by
  rintro (h | h) <;> rw [hw] at h <;> cases h

theorem Linked.step (h : Linked s) (hs : ServiceStep env s input s' out) : Linked s' := by
  cases hs with
  | main hown hm =>
    have hmain := ForkJoin.step_cases hm
    rw [hown] at hmain
    exact ⟨(ForkJoin.flag_of_own hmain).trans h.flag, h.table,
      fun hi => h.scanEnd (ForkJoin.stopped_of_own hmain hi),
      fun hi => h.dirEnd (ForkJoin.stopped_of_own hmain hi)⟩
  | ignored => exact h
  | signal _ hd =>
    cases hd
    exact ⟨rfl, h.table, h.scanEnd, h.dirEnd⟩
  | scan hw _ hd =>
    cases hd
    exact ⟨h.flag, rfl, fun hi => absurd hi (not_stopped hw), h.dirEnd⟩
  | @scanEnds rc _ _ hpc hm =>
    have hflag := h.flag
    obtain ⟨rfl, -⟩ := ForkJoin.finish_cases hm
    exact ⟨hflag, h.table, fun _ => ⟨rc, hpc⟩,
      fun hi => h.dirEnd (ForkJoin.stopped_of_finish hm hi (by decide))⟩
  | dir hown hw hd =>
    have hdir := step_cases hd
    rw [hown] at hdir
    obtain ⟨hflag, htable⟩ := hdir.frame
    exact ⟨h.flag.trans hflag.symm, htable.trans h.table, h.scanEnd,
      fun hi => absurd hi (not_stopped hw)⟩
  | dirEnds hpc hm =>
    have hflag := h.flag
    obtain ⟨rfl, -⟩ := ForkJoin.finish_cases hm
    exact ⟨hflag, h.table, fun hi => h.scanEnd (ForkJoin.stopped_of_finish hm hi (by decide)),
      fun _ => hpc⟩

theorem Linked.run {path : CString} {arg : ThreadArgument}
    (h : (Service.begin path arg).run env inputs = some (s, tr)) : Linked s :=
  Machine.run_keeps (fun hp hs => hp.step (serviceStep_cases hs).2) (linked_begin path arg) h

/-! ### From the start -/

/-- A start that gets to the threads has parsed its configuration. -/
theorem start_cases (h : start env = .ok (some s₀)) :
    ∃ parsed hashTable, hashTableCreate HASH_TABLE_MAX env.junk = some hashTable ∧
      backupParseAndSerializeConfig env.isDir env.buffer .initial = .ok parsed ∧
      parsed.failure = none ∧ s₀ = .begin (backupGetPathToBackup parsed.state)
        ⟨configuredDir parsed.state, hashTable⟩ := by
  unfold start at h
  split at h
  · cases h
  · next hashTable hcreate =>
    split at h
    · obtain ⟨parsed, hparsed, h⟩ := bind_eq_ok h
      split at h
      · next hok =>
        obtain rfl := Option.some.inj (Except.ok.inj h)
        exact ⟨parsed, hashTable, hcreate, hparsed, Option.isNone_iff_eq_none.mp hok.1, rfl⟩
      · cases h
    · cases h

@[simp] theorem mem_mainTrace {l : ForkJoin.Label} : l ∈ mainTrace tr ↔ .main l ∈ tr := by
  simp only [mainTrace, List.mem_filterMap]
  constructor
  · rintro ⟨x, hx, he⟩
    cases x with
    | main l' => exact Option.some.inj he ▸ hx
    | scan | dir => cases he
  · exact fun h => ⟨_, h, rfl⟩

@[simp] theorem mem_dirTrace {l : DirLabel} : l ∈ dirTrace tr ↔ .dir l ∈ tr := by
  simp only [dirTrace, List.mem_filterMap]
  constructor
  · rintro ⟨x, hx, he⟩
    cases x with
    | dir l' => exact Option.some.inj he ▸ hx
    | scan | main => cases he
  · exact fun h => ⟨_, h, rfl⟩

/-- What a run of the service comes to. -/
structure ServiceAccounts (env : StartEnv) (s : Service) (tr : List ServiceLabel) : Prop where
  /-- behind the free a thread runs only if it was given up at its join, or
  another one could not be created -/
  late : ∀ i, .main (.used i true) ∈ tr →
    .main (.timedOut i) ∈ tr ∨ ∃ j, i < j ∧ .main (.refused j) ∈ tr
  once : (mainTrace tr).count .freed ≤ 1
  /-- no thread is joined that was never created -/
  joins : s.main.pc ≠ .fault
  /-- before the signal `start` returns only if a thread could not be created;
  if SIGINT was ignored by whoever started the service, there is none -/
  waits : s.main.flag = true → s.main.pc = .returned → ∃ i, .main (.refused i) ∈ tr
  ignored : env.ignored = true → s.main.flag = true
  /-- with the return code 0 both threads have returned, the event thread has
  handled what it has queued and given everything back, and nothing ran behind
  the free -/
  clean : s.main.pc = .returned → s.main.code = some NORMAL_EXIT →
    (∃ rc, s.scan.pc = .returned rc) ∧ s.dir.pc = .returned ∧ Balanced s.dir (dirTrace tr) ∧
      (mainTrace tr).count .freed = 1 ∧ ∀ i, .main (.used i true) ∉ tr
  /-- any other code tells that a thread was given up, or could not be created -/
  failed : s.main.pc = .returned → s.main.code ≠ some NORMAL_EXIT →
    s.main.code = some INVALID_EXIT ∧
      ∃ i, .main (.refused i) ∈ tr ∨ .main (.timedOut i) ∈ tr

/-- **The accounts of every run** of the service, in every interleaving. -/
theorem start_accounts (hstart : start env = .ok (some s₀))
    (h : s₀.run env inputs = some (s, tr)) : ServiceAccounts env s tr := by
  obtain ⟨parsed, hashTable, -, -, -, rfl⟩ := start_cases hstart
  have hproj := projects h
  obtain ⟨is, hmain, -⟩ := hproj.main
  obtain ⟨ds, hdir, -⟩ := hproj.dir
  obtain ⟨hinv, haccounts⟩ := ForkJoin.run_accounts hmain
  have hlinked := Linked.run h
  have hlate : ∀ i, .main (.used i true) ∈ tr →
      .main (.timedOut i) ∈ tr ∨ ∃ j, i < j ∧ .main (.refused j) ∈ tr := by
    intro i hi
    simpa using haccounts.late i (mem_mainTrace.mpr hi)
  have hignored : env.ignored = true → s.main.flag = true := fun hyes =>
    Machine.run_keeps (P := fun s => s.main.flag = true)
      (fun hp hs => ((serviceStep_cases hs).2.flag.resolve_right fun hno =>
        Bool.noConfusion (hyes.symm.trans hno.1)).trans hp) rfl h
  refine ⟨hlate, haccounts.once, fun hpc => ?_, fun hflag hpc => ?_, hignored, fun hpc hcode => ?_,
    fun hpc hcode => ?_⟩
  · have hguarded := (haccounts.fault hpc).1
    cases hguarded
  · rcases ForkJoin.run_waits hmain hflag hpc with ⟨j, hj⟩ | hzero
    · exact ⟨j, mem_mainTrace.mp hj⟩
    · cases hzero
  · -- the code is that of no failure, so both threads are joined
    obtain ⟨hfreed, hbranch⟩ := haccounts.returned hpc
    have hnone : ∀ j, .refused j ∉ mainTrace tr ∧ .timedOut j ∉ mainTrace tr := by
      rcases hinv.code with ⟨hfail, -⟩ | ⟨-, hnone⟩
      · rw [hcode] at hfail
        cases hfail
      · exact hnone
    have hjoined : ∀ i < startPlan.count, .joined i ∈ mainTrace tr := by
      rcases hbranch with ⟨hfail, -⟩ | ⟨-, hjoined⟩
      · rw [hcode] at hfail
        cases hfail
      · exact hjoined
    have hstopped : ∀ i < startPlan.count, s.main.stopped i := fun i hi =>
      .inr (hinv.joined i (hjoined i hi))
    have hreturned := hlinked.dirEnd (hstopped generalLoop (by decide))
    refine ⟨hlinked.scanEnd (hstopped backupLoop (by decide)), hreturned,
      (DirInv.run hdir).1.balanced hreturned, hfreed, fun i hi => ?_⟩
    rcases hlate i hi with ht | ⟨j, -, hj⟩
    · exact (hnone i).2 (mem_mainTrace.mpr ht)
    · exact (hnone j).1 (mem_mainTrace.mpr hj)
  · obtain ⟨-, hbranch⟩ := haccounts.returned hpc
    rcases hbranch with ⟨hfail, j, hj⟩ | ⟨hzero, -⟩
    · exact ⟨hfail, j, by simpa using hj⟩
    · exact absurd hzero hcode

/-! The file "x" is created in `/w`, and SIGINT comes while its block is
freed. -/

/-- Nothing is refused, and the walk goes through `nested`. -/
def startNested : StartEnv where
  redirected := true
  ignored := false
  isDir := fun _ => true
  buffer := some (bothGiven.bytes ++ 0 :: [])
  junk := 0
  mutexInit := 0
  scan := quietEnv nested

/-- The walk cannot be opened. -/
def startUnopened : StartEnv := { startNested with scan := { quietEnv nested with fts := none } }

/-- A step of the thread of the events, taken in the service. -/
def serviceInput : DirInput → ServiceInput
  | .signal => .signal
  | input => .dir input

/-- Both threads come to their ends, and are joined. -/
def shutdown : List ServiceInput :=
  [.main (.created 0), .main (.created 0), .main .go, .scan, .scan, .scanEnds] ++
    oneFile.map serviceInput ++
    [.dirEnds, .main .go, .main .go, .main .go, .main .go, .main .go, .main .go]

/-- What a run from the start comes to. -/
def observe {α : Type} (env : StartEnv) (inputs : List ServiceInput)
    (f : Service × List ServiceLabel → α) : Option α :=
  (start env).toOption.join.bind fun s => (s.run env inputs).map f

theorem of_observe {α : Type} {f : Service × List ServiceLabel → α} {a : α}
    (h : observe env inputs f = some a) :
    ∃ s₀ s tr, start env = .ok (some s₀) ∧ s₀.run env inputs = some (s, tr) ∧ f (s, tr) = a := by
  obtain ⟨s₀, hstart, h⟩ := Option.bind_eq_some_iff.mp h
  obtain ⟨⟨s, tr⟩, hrun, h⟩ := Option.map_eq_some_iff.mp h
  refine ⟨s₀, s, tr, ?_, hrun, h⟩
  rcases he : start env with e | r
  · rw [he] at hstart
    cases hstart
  · rw [he] at hstart
    exact congrArg Except.ok hstart

theorem accounts_shutdown :
    ∃ s₀ s tr, start startUnopened = .ok (some s₀) ∧
      s₀.run startUnopened shutdown = some (s, tr) ∧
      (s.main.pc = .returned ∧ s.main.code = some NORMAL_EXIT) ∧
      ServiceAccounts startUnopened s tr := by
  have hrun : observe startUnopened shutdown (fun r => (r.1.main.pc, r.1.main.code)) =
      some (.returned, some NORMAL_EXIT) := by decide +kernel
  obtain ⟨s₀, s, tr, hstart, hrun, he⟩ := of_observe hrun
  obtain ⟨hpc, hcode⟩ := Prod.mk.inj he
  exact ⟨s₀, s, tr, hstart, hrun, ⟨hpc, hcode⟩, start_accounts hstart hrun⟩

end SecuritySystem.Backup
