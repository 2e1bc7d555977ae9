/-
SecuritySystem/Backup/ServiceTables.lean

What the event thread of the backup service finds in the table.

The scan is the only thread that changes the table, and the event thread sees
it between any two of its inserts.  So each table that an event finds comes
from inserts of paths that the walk has delivered (`HandsOver`), which settles
where files are copied from (`start_copies`) and which faults there can be
(`start_fits`); and in the end it is the table that the scan would have left
alone (`start_scans`).
-/
import SecuritySystem.Backup.ServiceSafety

namespace SecuritySystem.Backup

open CMem CString FileTree

variable {env : StartEnv} {s₀ s s' : Service} {input : ServiceInput}
variable {inputs : List ServiceInput} {tr out : List ServiceLabel}

/-! ### The tables that the events find -/

/-- A step of its own gives the event thread no new table. -/
theorem DirStep.tables_eq {path : CString} {d d' : DirThread} {ls : List DirLabel} {u : State}
    {dtr : List DirLabel} (hs : DirStep path d true d' ls) :
    tables u (dtr ++ ls) = tables u dtr := by
  have hloop : ∀ ms : List Label, tables u (dtr ++ ms.map .loop) = tables u dtr := by
    intro ms
    rw [tables, List.filterMap_append, List.filterMap_map]
    simp [tables]
  have hcons : ∀ (l : DirLabel) (ms : List Label), (∀ t w m, l ≠ .scanned t w m) →
      tables u (dtr ++ l :: ms.map .loop) = tables u dtr := by
    intro l ms hl
    rw [← hloop ms]
    cases l with
    | scanned t w m => exact absurd rfl (hl t w m)
    | _ => simp [tables]
  cases hs with
  | looped => exact hloop _
  | delivered => exact hcons _ _ (by simp)
  | handled => exact hcons _ _ (by simp)
  | destroying =>
    unfold DirThread.destroyStep
    split
    · split
      · exact hcons _ [] (by simp)
      · split
        · exact hloop []
        · exact hcons _ [] (by simp)
    · exact hloop []
  | opened | exited | unreadable | left => exact hloop []
  | created | watched | faulted | closeFailed | closed => exact hcons _ [] (by simp)

/-- The table comes from inserts of paths that the walk has delivered. -/
structure FromWalk (env : ScanEnv) (junk : BitVec 32) (t : HashTable) : Prop where
  reachable : Reachable HASH_TABLE_MAX junk t
  delivered : ∀ v ∈ t.strings, InWalk env v

/-- The scan is in order, and so are the tables that it has handed over. -/
structure HandsOver (env : StartEnv) (u : State) (tr : List ServiceLabel) (s : Service) : Prop where
  scan : ScanInv env.scan env.junk s.scan
  handed : ∀ t ∈ tables u (dirTrace tr), FromWalk env.scan env.junk t

theorem HandsOver.step {u : State} (hb : ∀ a, (env.scan.behind a).headD 0 = 0)
    (h : HandsOver env u tr s) (hs : ServiceStep env s input s' out) :
    HandsOver env u (tr ++ out) s' := by
  cases hs with
  | main | scanEnds | dirEnds =>
    refine ⟨h.scan, fun t ht => h.handed t ?_⟩
    rwa [dirTrace_append, (traces_main _).2.1, List.append_nil] at ht
  | ignored =>
    rw [List.append_nil]
    exact h
  | signal _ hd =>
    cases hd
    refine ⟨h.scan, fun t ht => h.handed t ?_⟩
    rw [dirTrace_append, (traces_dir _).2.1] at ht
    simpa [tables] using ht
  | scan hw hgo hd =>
    cases hd
    have hscan := h.scan.step hb hgo
    refine ⟨hscan, fun t ht => ?_⟩
    simp only [tables, dirTrace_append, List.filterMap_append, ← List.cons_append] at ht
    rcases List.mem_append.mp ht with ht | ht
    · exact h.handed t ht
    · -- the table that this step has handed over
      obtain rfl : t = _ := List.mem_singleton.mp ht
      exact ⟨hscan.table, hscan.stored⟩
  | dir hown hw hd =>
    have hdir := step_cases hd
    rw [hown] at hdir
    refine ⟨h.scan, fun t ht => h.handed t ?_⟩
    rw [dirTrace_append] at ht
    change t ∈ tables u (dirTrace tr ++ dirTrace (List.map .dir _)) at ht
    rwa [(traces_dir _).2.1, hdir.tables_eq] at ht

theorem HandsOver.run {path : CString} {arg : ThreadArgument}
    (hb : ∀ a, (env.scan.behind a).headD 0 = 0)
    (hcreate : hashTableCreate HASH_TABLE_MAX env.junk = some arg.hashTable)
    (h : (Service.begin path arg).run env inputs = some (s, tr)) :
    HandsOver env (Service.handler arg) tr s := by
  obtain ⟨hreach, hnil⟩ := reachable_create hcreate
  have hstart : HandsOver env (Service.handler arg) [] (Service.begin path arg) := by
    refine ⟨scanInv_start 0 hcreate, fun t ht => ?_⟩
    obtain rfl := List.mem_singleton.mp ht
    refine ⟨hreach, fun v hv => ?_⟩
    rw [Service.handler, hnil] at hv
    cases hv
  exact Machine.run_invariant (P := HandsOver env (Service.handler arg))
    (fun hp hs => hp.step hb (serviceStep_cases hs).2) hstart h

/-! ### Copies and faults -/

/-- No thread has run behind the free, and the blocks of `ht_dirs` read as the
strings that are stored in them. -/
structure Intact (env : StartEnv) (tr : List ServiceLabel) : Prop where
  late : ∀ l ∈ tr, l.late = false
  dirs : ∀ a, (env.scan.behind a).headD 0 = 0

theorem intact_of_any (hb : ∀ a, (env.scan.behind a).headD 0 = 0)
    (hlate : tr.any ServiceLabel.late = false) : Intact env tr :=
  ⟨fun l hl => Bool.eq_false_of_not_eq_true (List.any_eq_false.mp hlate l hl), hb⟩

/-- The blocks of the table read as their strings at every event, too. -/
structure Terminated (env : StartEnv) (inputs : List ServiceInput) (tr : List ServiceLabel) :
    Prop extends Intact env tr where
  events : ∀ opendir beyond, .dir (.handle opendir beyond) ∈ inputs → ∀ a, (beyond a).headD 0 = 0

/-- An event finds the memory that its input has brought. -/
theorem beyond_of_step {path : CString} {d d' : DirThread} {input : DirInput} {ls : List DirLabel}
    {found : Env} {event : InotifyEvent} (h : d.step path input = some (d', ls))
    (hmem : .event found event ∈ ls) : ∃ opendir, input = .handle opendir found.beyond := by
  have hnone : ls = [] → False := fun he => absurd (he ▸ hmem) List.not_mem_nil
  have hone : ∀ l, (∀ found event, l ≠ .event found event) → ls = [l] → False := fun l hl he =>
    hl found event (List.mem_singleton.mp (he ▸ hmem)).symm
  have hloop : ∀ ms : List Label, DirLabel.event found event ∉ ms.map .loop := by simp
  rw [DirThread.step.eq_def] at h
  split at h
  case h_8 opendir beyond hpc =>
    split at h
    · unfold DirThread.handleStep at h
      split at h
      · cases h
        cases hmem
      · cases h
      · dsimp only at h
        split at h
        · cases h
          obtain ⟨rfl, -⟩ := DirLabel.event.inj (List.mem_singleton.mp hmem)
          exact ⟨opendir, rfl⟩
        · obtain ⟨r, -, he⟩ := Option.map_eq_some_iff.mp h
          cases he
          rcases List.mem_cons.mp hmem with he | he
          · obtain ⟨rfl, -⟩ := DirLabel.event.inj he
            exact ⟨opendir, rfl⟩
          · exact absurd he (hloop r.2)
    · cases h
  case h_4 =>
    split at h <;> cases h
    · exact absurd rfl hnone
    · exact (hone _ (by simp) rfl).elim
  case h_5 =>
    dsimp only at h
    split at h <;> cases h <;> exact (hone _ (by simp) rfl).elim
  case h_6 =>
    split at h
    · obtain ⟨r, -, he⟩ := Option.map_eq_some_iff.mp h
      cases he
      exact absurd hmem (hloop r.2)
    · cases h
  case h_7 =>
    obtain ⟨r, -, he⟩ := Option.map_eq_some_iff.mp h
    cases he
    rcases List.mem_cons.mp hmem with he | he
    · cases he
    · exact absurd he (hloop r.2)
  case h_9 =>
    split at h
    · cases h
      exact absurd rfl hnone
    · cases h
  case h_10 => split at h <;> cases h <;> exact (hone _ (by simp) rfl).elim
  case h_11 =>
    obtain rfl : d.destroyStep.2 = ls := congrArg Prod.snd (Option.some.inj h)
    unfold DirThread.destroyStep at hmem
    split at hmem
    · split at hmem
      · cases List.mem_singleton.mp hmem
      · split at hmem
        · cases hmem
        · cases List.mem_singleton.mp hmem
    · cases hmem
  case h_12 => cases h
  all_goals
    cases h
    simp at hmem

theorem beyond_of_run {found : Env} {event : InotifyEvent} (h : s₀.run env inputs = some (s, tr))
    (hmem : .dir (.event found event) ∈ tr) :
    ∃ opendir, .dir (.handle opendir found.beyond) ∈ inputs := by
  induction inputs generalizing s₀ tr with
  | nil =>
    obtain ⟨rfl, rfl⟩ := Prod.mk.inj (Option.some.inj h)
    cases hmem
  | cons input inputs ih =>
    obtain ⟨t, out, outs, ht, hrest, rfl⟩ := Machine.run_cons_iff.mp h
    rcases List.mem_append.mp hmem with hmem | hmem
    · have hdir : .event found event ∈ dirTrace out := mem_dirTrace.mpr hmem
      cases (serviceStep_cases ht).2 with
      | main | scanEnds | dirEnds =>
        rw [(traces_main _).2.1] at hdir
        cases hdir
      | ignored => cases hmem
      | signal _ hd =>
        rw [(traces_dir _).2.1] at hdir
        obtain ⟨opendir, he⟩ := beyond_of_step hd hdir
        cases he
      | @scan t _ ls _ _ hd =>
        change _ ∈ dirTrace (ls.map .dir) at hdir
        rw [(traces_dir _).2.1] at hdir
        obtain ⟨opendir, he⟩ := beyond_of_step hd hdir
        cases he
      | @dir input _ ls _ _ hd =>
        change _ ∈ dirTrace (ls.map .dir) at hdir
        rw [(traces_dir _).2.1] at hdir
        obtain ⟨opendir, rfl⟩ := beyond_of_step hd hdir
        exact ⟨opendir, List.mem_cons_self⟩
    · obtain ⟨opendir, hin⟩ := ih hrest hmem
      exact ⟨opendir, List.mem_cons_of_mem _ hin⟩

/-- The blocks of a table read as its strings at every event of a run. -/
theorem Terminated.of_event (hterm : Terminated env inputs tr)
    (h : s₀.run env inputs = some (s, tr)) {found : Env} {event : InotifyEvent}
    (hmem : .event found event ∈ dirTrace tr) :
    ∀ a, (found.beyond a).headD 0 = 0 := by
  obtain ⟨opendir, hin⟩ := beyond_of_run h (mem_dirTrace.mp hmem)
  exact hterm.events opendir found.beyond hin

/-- What an event of the run finds stored was delivered by the walk. -/
theorem HandsOver.delivered {u : State} (h : HandsOver env u tr s)
    (hterm : Terminated env inputs tr) (hrun : s₀.run env inputs = some (s, tr)) {d : CString}
    (hd : StoredIn u (dirTrace tr) d) : InWalk env.scan d := by
  obtain ⟨found, event, he, t, ht, hd⟩ := hd
  obtain ⟨hreach, hdelivered⟩ := h.handed t ht
  obtain ⟨l, hl, -⟩ := hreach.chained
  rw [chainValues_eq_strings hl (hterm.of_event hrun he)] at hd
  exact hdelivered d hd

/-- **The files that are copied**: in every run of the service in which no thread
runs behind the free, each command copies the file that its event names out of
the configured directory or out of a path of the walk, in the order of the
events and once for an event at most. -/
theorem start_copies {tree : Tree} (hstart : start env = .ok (some s₀))
    (hfts : ∀ fts, env.scan.fts = some fts → fts.entries = tree.visit)
    (h : s₀.run env inputs = some (s, tr)) (hterm : Terminated env inputs tr) :
    ∃ calls, Copies s₀.pathToBackup s₀.dir.handler s.dir (dirTrace tr) calls ∧
      ∀ c ∈ calls, ∃ d, (d = s₀.dir.handler.arg.pathToDir ∨ d ∈ tree.dirs ∨ d ∈ tree.files) ∧
        c.2.1 = pathIn d c.2.2 := by
  obtain ⟨parsed, hashTable, hcreate, -, -, rfl⟩ := start_cases hstart
  obtain ⟨ds, hdir, -⟩ := (projects h).dir
  obtain ⟨-, calls, hcalls⟩ := copies_run hdir
  have hover := HandsOver.run hterm.dirs hcreate h
  refine ⟨calls, hcalls, fun c hc => ?_⟩
  obtain ⟨d, hknown, -, hpath⟩ := (hcalls.justified c hc).path
  refine ⟨d, hknown.imp_right fun hd => ?_, hpath⟩
  have hentries : ∀ {info : FtsInfo}, d ∈ pathsOf info env.scan.entries →
      d ∈ pathsOf info tree.visit := by
    intro info hd
    unfold ScanEnv.entries at hd
    rcases he : env.scan.fts with - | fts
    · rw [he] at hd
      cases hd
    · rw [he] at hd
      exact hfts fts he ▸ hd
  rcases hover.delivered hterm h hd with hd | hd
  · exact .inr (tree.pathsOf_visit_files ▸ hentries hd)
  · exact .inl (tree.pathsOf_visit_dirs ▸ hentries hd)

/-! The event comes in the middle of the walk. -/

/-- The event is handled before the walk has come to its end. -/
def midWalk : List ServiceInput :=
  [.main (.created 0), .main (.created 0), .scan, .scan, .scan] ++
    (oneFile.take 14).map serviceInput

theorem terminated_midWalk {env : StartEnv} (hb : ∀ a, (env.scan.behind a).headD 0 = 0)
    (hlate : tr.any ServiceLabel.late = false) : Terminated env midWalk tr := by
  refine ⟨intact_of_any hb hlate, fun opendir beyond hmem a => ?_⟩
  simp [midWalk, oneFile, serviceInput] at hmem
  rw [hmem.2]
  rfl

theorem copies_midWalk :
    ∃ s₀ s tr calls, start startNested = .ok (some s₀) ∧
      s₀.run startNested midWalk = some (s, tr) ∧
      s.dir.handler.commands = [lit "/bin/cp /w/x /backup/"] ∧
      Copies s₀.pathToBackup s₀.dir.handler s.dir (dirTrace tr) calls := by
  have hrun : observe startNested midWalk
      (fun r => (r.1.dir.handler.commands, r.2.any ServiceLabel.late)) =
        some ([lit "/bin/cp /w/x /backup/"], false) := by decide +kernel
  obtain ⟨s₀, s, tr, hstart, hrun, he⟩ := of_observe hrun
  obtain ⟨hcommands, hlate⟩ := Prod.mk.inj he
  have hfts : ∀ fts, startNested.scan.fts = some fts → fts.entries = nested.visit := by
    intro fts h
    obtain rfl := Option.some.inj h
    rfl
  obtain ⟨calls, hcalls, -⟩ := start_copies hstart hfts hrun
    (terminated_midWalk (fun _ => rfl) hlate)
  exact ⟨s₀, s, tr, calls, hstart, hrun, hcommands, hcalls⟩

/-- The settings of a parsed text are short. -/
theorem cutAtLine_of_parse {isDir : CString → Bool} {text : CString} {behind : List UInt8}
    {r : Parsed BackupConfig}
    (h : backupParseAndSerializeConfig isDir (some (text.bytes ++ 0 :: behind)) .initial = .ok r)
    (hempty : EmptyBehind backupKnown text behind) (hsuccess : r.failure = none) :
    CutAtLine r.state := by
  have hreads : Reads HELPERS_FILE_STROKE_MAX_LEN (backupSet isDir) backupKnown (textLines text)
      .initial r.applied r.state :=
    (lineLoop_reads (by decide) backupSet_unknown_iff h hsuccess).of_seen hempty
  exact cutAtLine_initial.sets hreads.sets (hreads.strlen_le (nul_not_mem_textLines text))

/-- **The faults of the service**: for every text of the configuration, in
every run in which no thread runs behind the free, the event thread faults only
with a bad pointer, which needs a directory without a slash or an event without
a name, and the scan only by its use of `ht_dirs` behind a watch that was
refused. -/
theorem start_fits {text : CString} {behind : List UInt8} (hstart : start env = .ok (some s₀))
    (htext : env.buffer = some (text.bytes ++ 0 :: behind))
    (hempty : EmptyBehind backupKnown text behind) (h : s₀.run env inputs = some (s, tr))
    (hterm : Terminated env inputs tr) :
    (∀ e, s.dir.pc = .fault e →
      e = .badPointer ∧ ¬ Usable s₀.pathToBackup s₀.dir.handler (dirTrace tr)) ∧
    ∀ e, s.scan.pc = .fault e → e = .useAfterFree ∧ ∃ n d, (env.scan.addWatch n d).toInt < 0 := by
  obtain ⟨parsed, hashTable, hcreate, hparsed, hsuccess, rfl⟩ := start_cases hstart
  obtain ⟨ds, hdir, -⟩ := (projects h).dir
  have hover := HandsOver.run hterm.dirs hcreate h
  rw [htext] at hparsed
  constructor
  · intro e hpc
    have hcfg : FromConfig parsed.state (backupGetPathToBackup parsed.state)
        (Service.handler ⟨configuredDir parsed.state, hashTable⟩) (dirTrace tr) :=
      ⟨rfl, rfl, fun t ht => ⟨env.junk, (hover.handed t ht).reachable⟩,
        fun _ _ he => hterm.of_event h he⟩
    exact hcfg.of_fault (cutAtLine_of_parse hparsed hempty hsuccess) hdir hpc
  · intro e hpc
    have hplace := hover.scan.place
    rw [hpc] at hplace
    exact hplace

/-- No backup directory is given. -/
def startDir : StartEnv := { startNested with buffer := some (dirGiven.bytes ++ 0 :: []) }

/-- The fault of the event thread. -/
def Service.dirFault (s : Service) : Option Fault :=
  match s.dir.pc with
  | .fault e => some e
  | _ => none

theorem fits_dirGiven :
    ∃ s₀ s tr, start startDir = .ok (some s₀) ∧ s₀.run startDir midWalk = some (s, tr) ∧
      s.dir.pc = .fault .badPointer ∧
      ¬ Usable s₀.pathToBackup s₀.dir.handler (dirTrace tr) := by
  have hrun : observe startDir midWalk (fun r => (r.1.dirFault, r.2.any ServiceLabel.late)) =
      some (some .badPointer, false) := by decide +kernel
  obtain ⟨s₀, s, tr, hstart, hrun, he⟩ := of_observe hrun
  obtain ⟨hfault, hlate⟩ := Prod.mk.inj he
  have hpc : s.dir.pc = .fault .badPointer := by
    simp only [Service.dirFault] at hfault
    split at hfault
    · next e hpc =>
      obtain rfl := Option.some.inj hfault
      exact hpc
    · cases hfault
  obtain ⟨hdir, -⟩ := start_fits hstart rfl (by decide +kernel) hrun
    (terminated_midWalk (fun _ => rfl) hlate)
  exact ⟨s₀, s, tr, hstart, hrun, hpc, (hdir _ hpc).2⟩

/-! ### The scan in company -/

/-- The flag as the scan has seen it so far, and as it is now. -/
structure SeesDown (tr : List ServiceLabel) (s : Service) : Prop where
  down : FlagsDown ((scanInputs tr).map ScanInput.keepRunning)
  set : s.main.flag = true → ∀ b ∈ (scanInputs tr).map ScanInput.keepRunning, b = true

/-- Other steps than those of the scan. -/
theorem SeesDown.quiet (h : SeesDown tr s) (hnone : scanInputs out = [])
    (hflag : s'.main.flag = true → s.main.flag = true) : SeesDown (tr ++ out) s' := by
  have hsame : scanInputs (tr ++ out) = scanInputs tr := by
    rw [scanInputs_append, hnone, List.append_nil]
  refine ⟨?_, fun htrue => ?_⟩
  · rw [hsame]
    exact h.down
  · rw [hsame]
    exact h.set (hflag htrue)

theorem SeesDown.step (h : SeesDown tr s) (hs : ServiceStep env s input s' out) :
    SeesDown (tr ++ out) s' := by
  have hflag : s'.main.flag = true → s.main.flag = true := by
    rcases hs.flag with hsame | ⟨-, hfalse⟩
    · exact fun htrue => hsame.symm.trans htrue
    · exact fun htrue => Bool.noConfusion (htrue.symm.trans hfalse)
  cases hs with
  | main | scanEnds | dirEnds => exact h.quiet (traces_main _).2.2 hflag
  | ignored => exact h.quiet rfl hflag
  | signal | dir => exact h.quiet (traces_dir _).2.2 hflag
  | @scan _ _ ls =>
    -- the step sees the flag as it is
    have hfound : scanInputs (tr ++ .main (.used backupLoop s.main.freed) :: .scan s.found ::
        ls.map .dir) = scanInputs tr ++ [s.found] := by
      rw [scanInputs_append]
      exact congrArg (fun l => scanInputs tr ++ s.found :: l) (traces_dir _).2.2
    refine ⟨?_, fun htrue b hmem => ?_⟩
    · rw [hfound, List.map_append]
      refine List.pairwise_append.mpr ⟨h.down, List.pairwise_singleton _ _, ?_⟩
      intro a ha b hmem htrue
      obtain rfl := List.mem_singleton.mp hmem
      exact h.set htrue a ha
    · rw [hfound, List.map_append] at hmem
      rcases List.mem_append.mp hmem with hmem | hmem
      · exact h.set htrue b hmem
      · obtain rfl := List.mem_singleton.mp hmem
        exact htrue

theorem SeesDown.run {path : CString} {arg : ThreadArgument}
    (h : (Service.begin path arg).run env inputs = some (s, tr)) : SeesDown tr s := by
  have hstart : SeesDown [] (Service.begin path arg) :=
    ⟨List.Pairwise.nil, fun _ b hb => absurd hb List.not_mem_nil⟩
  exact Machine.run_invariant (P := SeesDown) (fun hp hs => hp.step (serviceStep_cases hs).2)
    hstart h

/-- **The scan of the service is the scan alone**: as long as no thread runs
behind the free, and whatever the event thread does in the meantime, the scan
leaves the table and the watches, and returns the code, of
`backup_fs_iteration_main` with the signal at some test; and the event thread
finds that table. -/
theorem start_scans (hstart : start env = .ok (some s₀)) (h : s₀.run env inputs = some (s, tr))
    (hintact : Intact env tr) :
    ∃ n t, SameScan s.scan.state t ∧ s.dir.handler.arg.hashTable = t.arg.hashTable ∧
      (∀ rc, s.scan.pc = .returned rc →
        backupFsIterationMain (env.scan.withRunning (· < n)) s₀.dir.handler.arg 0 =
          (t, .ok rc)) ∧
      ∀ e, s.scan.pc = .fault e →
        backupFsIterationMain (env.scan.withRunning (· < n)) s₀.dir.handler.arg 0 =
          (t, .error e) := by
  obtain ⟨parsed, hashTable, hcreate, -, -, rfl⟩ := start_cases hstart
  obtain ⟨n, t, hsame, hreturned, hfault⟩ :=
    scan_alone hintact.dirs hcreate (SeesDown.run h).down (projects h).scan.1
  refine ⟨n, t, hsame, ?_, hreturned, hfault⟩
  rw [(Linked.run h).table, hsame.arg]

/-- The code that the scan has returned. -/
def Service.scanCode (s : Service) : Option ℤ :=
  match s.scan.pc with
  | .returned rc => some rc
  | _ => none

theorem scans_shutdown :
    ∃ s₀ s tr n t, start startUnopened = .ok (some s₀) ∧
      s₀.run startUnopened shutdown = some (s, tr) ∧ SameScan s.scan.state t ∧
      backupFsIterationMain (startUnopened.scan.withRunning (· < n)) s₀.dir.handler.arg 0 =
        (t, .ok HELPERS_INVALID_EXIT) := by
  have hrun : observe startUnopened shutdown (fun r => (r.1.scanCode, r.2.any ServiceLabel.late)) =
      some (some HELPERS_INVALID_EXIT, false) := by decide +kernel
  obtain ⟨s₀, s, tr, hstart, hrun, he⟩ := of_observe hrun
  obtain ⟨hcode, hlate⟩ := Prod.mk.inj he
  have hpc : s.scan.pc = .returned HELPERS_INVALID_EXIT := by
    simp only [Service.scanCode] at hcode
    split at hcode
    · next rc hpc =>
      obtain rfl := Option.some.inj hcode
      exact hpc
    · cases hcode
  obtain ⟨n, t, hsame, -, hreturned, -⟩ := start_scans hstart hrun
    (intact_of_any (fun _ => rfl) hlate)
  exact ⟨s₀, s, tr, n, t, hstart, hrun, hsame, hreturned _ hpc⟩

end SecuritySystem.Backup
