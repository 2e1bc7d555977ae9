/-
SecuritySystem/Backup/Watches.lean

The counter of watches, next to the watches that the kernel has.

`watch_dir` raises `watched_items` with every successful `inotify_add_watch`,
and `handle_event` is to lower it when a watch has ended.  `Kernel` is the
other side: the live watches, each with its descriptor and its inode.  The
kernel watches an inode once, so a second call for it, by whatever path,
returns the descriptor it has; and it tells the end of a watch by an
IN_IGNORED event, which carries no name.

Both are places where the counter goes wrong (`agrees_exec_iff`), and the only
ones.
-/
import SecuritySystem.Backup.HandlerRun
import SecuritySystem.Backup.Scan
import Mathlib.Data.Int.Interval

namespace SecuritySystem.Backup

open CMem CString

/-! ### The kernel -/

/-- The number of an inode. -/
abbrev Inode := ℕ

/-- The live watches of the inotify instance. -/
structure Kernel where
  live : List (Int32 × Inode)

namespace Kernel

/-- The descriptor by which an inode is watched. -/
def descriptor (k : Kernel) (ino : Inode) : Option Int32 :=
  (k.live.find? fun w => w.2 = ino).map Prod.fst

/-- `inotify_add_watch` for a path that leads to the inode `target`, or to
nothing that can be watched; `fresh` is the descriptor for a new watch. -/
def addWatch (k : Kernel) (target : Option Inode) (fresh : Int32) : Int32 × Kernel :=
  match target with
  | none => (-1, k)
  | some ino =>
    match k.descriptor ino with
    | some wd => (wd, k)
    | none => (fresh, ⟨(fresh, ino) :: k.live⟩)

/-- The watch ends. -/
def endWatch (k : Kernel) (wd : ℤ) : Kernel := ⟨k.live.filter fun w => w.1.toInt ≠ wd⟩

/-- Descriptors are positive, and none is given out twice. -/
structure Sound (k : Kernel) : Prop where
  positive : ∀ w ∈ k.live, 0 < w.1.toInt
  nodup : (k.live.map fun w => w.1.toInt).Nodup

end Kernel

namespace Kernel

variable {k : Kernel} {ino : Inode} {fresh : Int32}

theorem descriptor_eq_none : k.descriptor ino = none ↔ ∀ w ∈ k.live, w.2 ≠ ino := by
  rw [descriptor, Option.map_eq_none_iff, List.find?_eq_none]
  simp

theorem Sound.of_descriptor (h : k.Sound) {wd : Int32} (hd : k.descriptor ino = some wd) :
    0 < wd.toInt := by
  obtain ⟨w, hw, rfl⟩ := Option.map_eq_some_iff.mp hd
  exact h.positive w (List.mem_of_find?_eq_some hw)

/-- There are fewer live watches than descriptors. -/
theorem Sound.length_lt (h : k.Sound) : k.live.length < 2 ^ 32 := by
  have hsub : (k.live.map fun w => w.1.toInt).toFinset ⊆ Finset.Ioo 0 (2 ^ 31) := by
    intro x hx
    obtain ⟨w, hw, rfl⟩ := List.mem_map.mp (List.mem_toFinset.mp hx)
    exact Finset.mem_Ioo.mpr ⟨h.positive w hw, w.1.toInt_lt⟩
  have hcard := Finset.card_le_card hsub
  rw [List.toFinset_card_of_nodup h.nodup, List.length_map, Int.card_Ioo] at hcard
  omega

/-- The end of a live watch leaves one less. -/
theorem Sound.length_endWatch (h : k.Sound) {wd : ℤ} (hwd : wd ∈ k.live.map fun w => w.1.toInt) :
    (k.endWatch wd).live.length + 1 = k.live.length := by
  obtain ⟨w, hw, rfl⟩ := List.mem_map.mp hwd
  obtain ⟨before, behind, hlive⟩ := List.append_of_mem hw
  have hnodup := h.nodup
  rw [hlive, List.map_append, List.map_cons, List.nodup_middle, List.nodup_cons,
    ← List.map_append] at hnodup
  -- no other watch has this descriptor
  have hrest : (before ++ behind).filter (fun v => v.1.toInt ≠ w.1.toInt) = before ++ behind := by
    rw [List.filter_eq_self]
    intro v hv
    rw [decide_eq_true_iff]
    exact fun he => hnodup.1 (he ▸ List.mem_map_of_mem hv)
  have hend : (k.endWatch w.1.toInt).live = before ++ behind := by
    rw [← hrest]
    simp [endWatch, hlive]
  rw [hend, hlive]
  simp
  omega

theorem Sound.endWatch (h : k.Sound) (wd : ℤ) : (k.endWatch wd).Sound where
  positive := fun w hw => h.positive w (List.mem_of_mem_filter hw)
  nodup := h.nodup.sublist (List.filter_sublist.map _)

theorem Sound.addWatch (h : k.Sound) (target : Option Inode) (hfresh : 0 < fresh.toInt)
    (hnew : fresh.toInt ∉ k.live.map fun w => w.1.toInt) : (k.addWatch target fresh).2.Sound := by
  unfold Kernel.addWatch
  split
  · exact h
  · split
    · exact h
    · refine ⟨fun w hw => ?_, List.nodup_cons.mpr ⟨hnew, h.nodup⟩⟩
      rcases List.mem_cons.mp hw with rfl | hw
      · exact hfresh
      · exact h.positive w hw

end Kernel

/-! ### The service and the kernel -/

/-- The service, and the kernel it has its watches from. -/
structure Watcher where
  handler : State
  kernel : Kernel

/-- What changes the watches or the counter. -/
inductive WatchStep
  /-- a call of `watch_dir`, for a path that leads to `target` -/
  | add (env : ScanEnv) (dirname : CString) (mask : UInt64) (target : Option Inode) (fresh : Int32)
  /-- a call of `handle_event` -/
  | event (env : Env) (event : InotifyEvent)

namespace Watcher

/-- A step, and the fault it ends in. -/
def exec (m : Watcher) : WatchStep → Watcher × Option Fault
  | .add env dirname mask target fresh =>
    let (wd, kernel) := m.kernel.addWatch target fresh
    let (s, r) := watchDir { env with addWatch := fun _ _ => wd } dirname mask
      ⟨m.handler.arg, 0, [], m.handler.watchedItems, m.handler.logged⟩
    ({ handler := { m.handler with watchedItems := s.watchedItems, logged := s.logged }
       kernel := kernel },
      match r with
      | .error e => some e
      | .ok _ => none)
  | .event env event =>
    let (s, fault) := handleEvent env event m.handler
    ({ handler := s
       kernel := if event.mask &&& IN_IGNORED = 0 then m.kernel else m.kernel.endWatch event.wd },
      fault)

/-- What inotify promises: the descriptor of a new watch is positive and not
in use, and an IN_IGNORED event has no name and tells the end of a live
watch. -/
def Possible (m : Watcher) : WatchStep → Prop
  | .add _ _ _ _ fresh =>
    0 < fresh.toInt ∧ fresh.toInt ∉ m.kernel.live.map fun w => w.1.toInt
  | .event _ event => event.mask &&& IN_IGNORED ≠ 0 →
    event.name = none ∧ event.wd ∈ m.kernel.live.map fun w => w.1.toInt

instance (m : Watcher) : DecidablePred m.Possible
  | .add .. => inferInstanceAs (Decidable (_ ∧ _))
  | .event .. => inferInstanceAs (Decidable (_ → _))

/-- The step adds no watch for an inode that is watched, and ends no watch. -/
def Good (m : Watcher) : WatchStep → Prop
  | .add _ _ _ target _ => ∀ ino, target = some ino → ∀ w ∈ m.kernel.live, w.2 ≠ ino
  | .event _ event => event.mask &&& IN_IGNORED = 0

/-- The counter is the number of live watches. -/
def Agrees (m : Watcher) : Prop := m.handler.watchedItems.toNat = m.kernel.live.length

/-- The loop's test for watches tells whether there is one left. -/
theorem Agrees.test {m : Watcher} (h : m.Agrees) :
    m.handler.watchedItems > 0 ↔ m.kernel.live ≠ [] := by
  rw [gt_iff_lt, UInt64.lt_iff_toNat_lt, h, ← List.length_pos_iff]
  rfl

end Watcher

/-! ### The counter under a step -/

section Counter

variable {env : Env} {event : InotifyEvent} {s : State} {f : CString} {m : Watcher}

/-- Without an IN_IGNORED event nothing lowers the counter. -/
theorem react_ne_ignored (h : event.mask &&& IN_IGNORED = 0) : react event f ≠ .ignored := by
  have hsel : event.mask &&& (IN_ALL_EVENTS ||| IN_Q_OVERFLOW ||| IN_IGNORED) ≠ IN_IGNORED := by
    intro he
    have hand := congrArg (· &&& IN_IGNORED) he
    rw [UInt32.and_assoc] at hand
    have h1 : (IN_ALL_EVENTS ||| IN_Q_OVERFLOW ||| IN_IGNORED) &&& IN_IGNORED = IN_IGNORED := rfl
    have h2 : IN_IGNORED &&& IN_IGNORED ≠ 0 := by decide
    rw [h1, h] at hand
    exact h2 hand.symm
  unfold react
  dsimp only
  split_ifs <;> simp_all

theorem handleNamed_watchedItems (h : event.mask &&& IN_IGNORED = 0) :
    (handleNamed env event f s).1.watchedItems = s.watchedItems := by
  have hbackup : ∀ path s, (backupFsMakeBackup env path f s).1.watchedItems = s.watchedItems := by
    intro path s
    unfold backupFsMakeBackup
    dsimp only
    split <;> rfl
  unfold handleNamed
  split
  · rfl
  · next hr => exact absurd hr (react_ne_ignored h)
  · split <;> rfl
  · split
    · rfl
    · unfold makeBackup
      split
      · rfl
      · exact hbackup _ _

/-- The handler never lowers the counter: not for other events, and an
IN_IGNORED event has no name, so that the handler returns or faults before its
switch. -/
theorem handleEvent_watchedItems
    (h : event.mask &&& IN_IGNORED ≠ 0 → event.name = none) :
    (handleEvent env event s).1.watchedItems = s.watchedItems := by
  unfold handleEvent
  split
  · rfl
  · rcases hname : event.name with - | f
    · rfl
    · have hig : event.mask &&& IN_IGNORED = 0 := by
        by_contra hne
        rw [h hne] at hname
        cases hname
      dsimp only
      split
      · rfl
      · split
        · rfl
        · exact handleNamed_watchedItems hig
        · exact handleNamed_watchedItems hig

/-- `watch_dir` counts every call that inotify does not refuse. -/
theorem watchDir_watchedItems (env : ScanEnv) (v : CString) (mask : UInt64) (s : ScanState) :
    (watchDir env v mask s).1.watchedItems =
      if (env.addWatch s.watched.length v).toInt < 0 then s.watchedItems
      else s.watchedItems + 1 := by
  unfold watchDir
  dsimp only
  split
  · rfl
  · split <;> rfl

theorem Watcher.exec_sound (hk : m.kernel.Sound) {step : WatchStep} (hp : m.Possible step) :
    (m.exec step).1.kernel.Sound := by
  cases step with
  | add env dirname mask target fresh => exact hk.addWatch target hp.1 hp.2
  | event env event =>
    show (if event.mask &&& IN_IGNORED = 0 then m.kernel else _).Sound
    split
    · exact hk
    · exact hk.endWatch event.wd

/-- **Exactly when a step keeps the counter right.** -/
theorem Watcher.agrees_exec_iff (hk : m.kernel.Sound) (ha : m.Agrees) {step : WatchStep}
    (hp : m.Possible step) : (m.exec step).1.Agrees ↔ m.Good step := by
  have hlen := hk.length_lt
  have hone : (m.handler.watchedItems + 1).toNat = m.kernel.live.length + 1 := by
    rw [UInt64.toNat_add, ha]
    show (m.kernel.live.length + 1) % 2 ^ 64 = _
    omega
  cases step with
  | add env dirname mask target fresh =>
    have hcount : (m.exec (.add env dirname mask target fresh)).1.handler.watchedItems =
        if (m.kernel.addWatch target fresh).1.toInt < 0 then m.handler.watchedItems
        else m.handler.watchedItems + 1 := watchDir_watchedItems _ _ _ _
    have hkernel : (m.exec (.add env dirname mask target fresh)).1.kernel =
        (m.kernel.addWatch target fresh).2 := rfl
    unfold Watcher.Agrees Watcher.Good
    rw [hcount, hkernel]
    rcases target with - | ino
    · exact iff_of_true ha fun ino hino => by cases hino
    · rcases hd : m.kernel.descriptor ino with - | wd
      · -- a new watch: both sides grow by one
        have hadd : m.kernel.addWatch (some ino) fresh =
            (fresh, ⟨(fresh, ino) :: m.kernel.live⟩) := by
          simp only [Kernel.addWatch, hd]
        rw [hadd, if_neg (Int.not_lt.mpr (Int.le_of_lt hp.1)), hone]
        refine iff_of_true rfl fun ino' hino => ?_
        obtain rfl := Option.some.inj hino
        exact Kernel.descriptor_eq_none.mp hd
      · -- an old one: only the counter grows
        have hadd : m.kernel.addWatch (some ino) fresh = (wd, m.kernel) := by
          simp only [Kernel.addWatch, hd]
        have hpos := hk.of_descriptor hd
        rw [hadd, if_neg (Int.not_lt.mpr (Int.le_of_lt hpos)), hone]
        refine iff_of_false (Nat.succ_ne_self _) fun hgood => ?_
        rw [Kernel.descriptor_eq_none.mpr (hgood ino rfl)] at hd
        cases hd
  | event env event =>
    have hcount : (m.exec (.event env event)).1.handler.watchedItems = m.handler.watchedItems :=
      handleEvent_watchedItems fun hne => (hp hne).1
    have hkernel : (m.exec (.event env event)).1.kernel =
        if event.mask &&& IN_IGNORED = 0 then m.kernel else m.kernel.endWatch event.wd := rfl
    unfold Watcher.Agrees Watcher.Good
    rw [hcount, hkernel, ha]
    by_cases hig : event.mask &&& IN_IGNORED = 0
    · rw [if_pos hig]
      exact iff_of_true rfl hig
    · rw [if_neg hig]
      have hend := hk.length_endWatch (hp hig).2
      exact iff_of_false (by omega) hig

end Counter

/-! ### Runs -/

namespace Watcher

/-- The states reached in a run, the first one included; a fault ends it. -/
def reached : Watcher → List WatchStep → List Watcher
  | m, [] => [m]
  | m, step :: steps =>
    match m.exec step with
    | (m', some _) => [m, m']
    | (m', none) => m :: reached m' steps

/-- `P` holds of each step of the run, in the state it is made in. -/
def Each (P : Watcher → WatchStep → Prop) : Watcher → List WatchStep → Prop
  | _, [] => True
  | m, step :: steps =>
    P m step ∧ ((m.exec step).2 = none → Each P (m.exec step).1 steps)

theorem reached_of_fault {m : Watcher} {step : WatchStep} {steps : List WatchStep}
    (h : (m.exec step).2 ≠ none) : m.reached (step :: steps) = [m, (m.exec step).1] := by
  unfold reached
  rcases he : m.exec step with ⟨m', - | fault⟩
  · rw [he] at h
    exact absurd rfl h
  · rfl

theorem reached_of_ok {m : Watcher} {step : WatchStep} {steps : List WatchStep}
    (h : (m.exec step).2 = none) :
    m.reached (step :: steps) = m :: (m.exec step).1.reached steps := by
  rw [reached]
  rcases he : m.exec step with ⟨m', - | fault⟩
  · rfl
  · rw [he] at h
    cases h

theorem mem_reached (m : Watcher) (steps : List WatchStep) : m ∈ m.reached steps := by
  cases steps with
  | nil => exact List.mem_cons_self
  | cons step steps =>
    by_cases h : (m.exec step).2 = none
    · rw [reached_of_ok h]
      exact List.mem_cons_self
    · rw [reached_of_fault h]
      exact List.mem_cons_self

end Watcher

/-- In every state of the run the counter is the number of live watches, and
so the loop stops for lack of watches exactly when none is left. -/
def CountsWatches (m : Watcher) (steps : List WatchStep) : Prop :=
  ∀ m' ∈ m.reached steps,
    m'.Agrees ∧ (m'.handler.watchedItems > 0 ↔ m'.kernel.live ≠ [])

theorem countsWatches_iff_of_agrees {m : Watcher} {steps : List WatchStep} (hk : m.kernel.Sound)
    (ha : m.Agrees) (hp : m.Each Watcher.Possible steps) :
    CountsWatches m steps ↔ m.Each Watcher.Good steps := by
  induction steps generalizing m with
  | nil =>
    refine iff_of_true (fun m' hm' => ?_) trivial
    obtain rfl := List.mem_singleton.mp hm'
    exact ⟨ha, ha.test⟩
  | cons step steps ih =>
    have hstep := Watcher.agrees_exec_iff hk ha hp.1
    have hsound := Watcher.exec_sound hk hp.1
    by_cases hok : (m.exec step).2 = none
    · rw [CountsWatches, Watcher.reached_of_ok hok]
      constructor
      · intro hall
        have hnext := (hall _ (List.mem_cons_of_mem m (Watcher.mem_reached _ steps))).1
        refine ⟨hstep.mp hnext, fun _ => ?_⟩
        rw [← ih hsound hnext (hp.2 hok)]
        exact fun m' hm' => hall m' (List.mem_cons_of_mem m hm')
      · rintro ⟨hgood, hrest⟩ m' hm'
        rcases List.mem_cons.mp hm' with rfl | hm'
        · exact ⟨ha, ha.test⟩
        · exact (ih hsound (hstep.mpr hgood) (hp.2 hok)).mpr (hrest hok) m' hm'
    · -- the state in which the fault leaves the program is the last one
      rw [CountsWatches, Watcher.reached_of_fault hok]
      constructor
      · intro hall
        exact ⟨hstep.mp (hall _ (by simp)).1, fun h => absurd h hok⟩
      · rintro ⟨hgood, -⟩ m' hm'
        rcases List.mem_cons.mp hm' with rfl | hm'
        · exact ⟨ha, ha.test⟩
        · obtain rfl := List.mem_singleton.mp hm'
          exact ⟨hstep.mpr hgood, (hstep.mpr hgood).test⟩

/-- **Exactly when the counter is right in every state of a run**: no step adds
a watch for an inode that is watched, and none handles an IN_IGNORED event. -/
theorem countsWatches_iff {m : Watcher} {steps : List WatchStep}
    (hcount : m.handler.watchedItems = 0) (hlive : m.kernel.live = [])
    (hp : m.Each Watcher.Possible steps) :
    CountsWatches m steps ↔ m.Each Watcher.Good steps := by
  refine countsWatches_iff_of_agrees ⟨?_, ?_⟩ ?_ hp
  · simp [hlive]
  · simp [hlive]
  · rw [Watcher.Agrees, hcount, hlive]
    rfl

/-! The service at its start, and a directory `/w/b` that leads to the inode
of `/w/a`. -/

/-- Nothing is watched yet. -/
def noWatches : Watcher where
  handler :=
    ⟨⟨lit "/w", ⟨fun _ => none, none, 10000, 0, fun _ => none, 0⟩⟩, 0, 0, [], [], []⟩
  kernel := ⟨[]⟩

/-- A scan of which only the message of a watch is looked at. -/
def quietScan : ScanEnv where
  fts := none
  running := fun _ => true
  inotifyFd := 3
  addWatch := fun _ _ => 1
  junk := 0
  besideArg := fun _ => ⟨[], []⟩
  besideDirs := fun _ => ⟨[], []⟩
  behind := fun _ => []

/-- Two directories with an inode of their own. -/
theorem countsWatches_iff_two :
    let steps : List WatchStep := [.add quietScan dirA condition (some 11) 1,
      .add quietScan dirB condition (some 12) 2]
    CountsWatches noWatches steps ↔ noWatches.Each Watcher.Good steps := by
  intro steps
  refine countsWatches_iff rfl rfl ⟨by decide, fun _ => ⟨by decide, fun _ => trivial⟩⟩

/-- `/w/b` is a link to `/w/a`: the second call counts a watch that is not
there. -/
theorem not_countsWatches_link :
    ¬ ∀ (m : Watcher) (steps : List WatchStep), m.handler.watchedItems = 0 →
      m.kernel.live = [] → m.Each Watcher.Possible steps → CountsWatches m steps := by
  intro hall
  have hp : noWatches.Each Watcher.Possible [.add quietScan dirA condition (some 11) 1,
      .add quietScan dirB condition (some 11) 2] :=
    ⟨by decide, fun _ => ⟨by decide, fun _ => trivial⟩⟩
  have hsound : noWatches.kernel.Sound := ⟨by decide, by decide⟩
  have hagrees : noWatches.Agrees := rfl
  have hcounts := hall noWatches _ rfl rfl hp
  rw [countsWatches_iff_of_agrees hsound hagrees hp] at hcounts
  -- the second call is not good: the inode is watched
  have hsecond := (hcounts.2 (by decide)).1 11 rfl (1, 11) List.mem_cons_self
  exact hsecond rfl

end SecuritySystem.Backup
