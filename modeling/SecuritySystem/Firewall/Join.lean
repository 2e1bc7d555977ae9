/-
SecuritySystem/Firewall/Join.lean

How the firewall service waits for its threads.

`start` creates one thread for each device, as long as `fw_keep_running` is
set, and then joins one thread for each device.  Nothing records how many were
created: if the flag is cleared before the last one, the join loop uses
entries of `threads` that were never filled, and if it is cleared before the
first, a return code that was never assigned (`usesAssigned_iff`).

The flag is cleared once, by the handler of SIGINT, so all that matters of the
signal is the number of tests that still see the flag set.
-/
import SecuritySystem.Firewall.Rules
import SecuritySystem.Firewall.Threads

namespace SecuritySystem.Firewall

/-! ### The code -/

/-- The seconds that a join may take. -/
def FW_MAX_SEC_WAIT : ℕ := 30

/-- `pthread_t` -/
abbrev Tid := ℕ

/-- The surroundings: the number of tests of `fw_keep_running` that see it set,
`none` without a signal; the result of `pthread_create` for each index, with
the id it fills in; and the results of `pthread_tryjoin_np` for each index, one
for each second. -/
structure ThreadEnv where
  signal : Option ℕ
  create : ℕ → ℤ × Tid
  tryjoin : ℕ → ℕ → ℤ

/-- What the `k`-th test of `fw_keep_running` sees. -/
def ThreadEnv.keepRunning (env : ThreadEnv) (k : ℕ) : Bool :=
  match env.signal with
  | none => true
  | some p => k < p

/-- A value that is used; `none` where nothing has been assigned. -/
inductive Use
  | tryjoin (id : Option Tid)
  | code (rc : Option ℤ)
deriving DecidableEq

section Join

variable (env : ThreadEnv)

/-- `while (fw_get_keep_running()) { sleep(sleep_now); continue; }`, from the
`k`-th test on: the seconds that are left of the given ones, and the number of
the next test; `none` when it has not ended by then. -/
def waitLoop : ℕ → ℕ → Option (ℕ × ℕ)
  | 0, k => if env.keepRunning k then none else some (0, k + 1)
  | seconds + 1, k =>
    if env.keepRunning k then waitLoop seconds (k + 1) else some (seconds + 1, k + 1)

/-- `while (0 != pthread_tryjoin_np(threads[i], NULL))`: the uses, and the
seconds left and `rc` afterwards; `none` when it has not ended by then. -/
def tryjoinLoop (i : ℕ) (id : Option Tid) : ℕ → ℕ → Option ℤ → List Use × Option (ℕ × Option ℤ)
  | 0, totalSleep, rc =>
    if env.tryjoin i totalSleep = 0 then ([.tryjoin id], some (0, rc)) else ([.tryjoin id], none)
  | seconds + 1, totalSleep, rc =>
    if env.tryjoin i totalSleep = 0 then ([.tryjoin id], some (seconds + 1, rc))
    else if (totalSleep + 1) % FW_MAX_SEC_WAIT = 0 then
      ([.tryjoin id], some (seconds, some FW_SERVICE_ERROR_CODE))
    else
      let (uses, left) := tryjoinLoop i id seconds (totalSleep + 1) rc
      (.tryjoin id :: uses, left)

/-- `for (i = 0; i < devices_num; i++)`, over the indices that are left, and
the return behind it. -/
def joinLoop (threads : List Tid) : List ℕ → ℕ → ℕ → Option ℤ → List Use
  | [], _, _, rc => [.code rc]
  | i :: is, seconds, k, rc =>
    match waitLoop env seconds k with
    | none => []
    | some (seconds, k) =>
      match tryjoinLoop env i threads[i]? seconds 0 rc with
      | (uses, none) => uses
      | (uses, some (seconds, rc)) => uses ++ .code rc :: joinLoop threads is seconds k rc

/-- The end of `start`, from `int rc;` on, with one entry of `thread_args` for
each device: what is used in the loop of the joins and behind it, until `start`
has slept for the given seconds.  When a thread cannot be created, `start`
returns before. -/
def joinThreads (threadArgs : List FwThreadArgument) (seconds : ℕ) : List Use :=
  let (created, rc) :=
    createThreads env.keepRunning (fun i => (env.create i).1) 0 threadArgs none
  if rc.any (· ≠ 0) then []
  else
    joinLoop env ((List.range created.length).map fun i => (env.create i).2)
      (List.range threadArgs.length) seconds (min (created.length + 1) threadArgs.length) rc

end Join

/-! ### What may be used -/

/-- The id was filled in by a `pthread_create` that succeeded; the code was
assigned. -/
def Use.Assigned (env : ThreadEnv) (n : ℕ) : Use → Prop
  | .tryjoin id => ∃ i < n, (env.create i).1 = 0 ∧ id = some (env.create i).2
  | .code rc => rc.isSome

/-- Whatever is used, for however long `start` sleeps, was assigned. -/
def UsesAssigned (env : ThreadEnv) (threadArgs : List FwThreadArgument) : Prop :=
  ∀ seconds, ∀ u ∈ joinThreads env threadArgs seconds, u.Assigned env threadArgs.length

/-- No creation is skipped for the signal: where the flag is cleared before a
creation, an earlier one has failed. -/
def NoCreationSkipped (env : ThreadEnv) (n : ℕ) : Prop :=
  ∀ p, env.signal = some p → p < n → ∃ i < p, (env.create i).1 ≠ 0

variable {env : ThreadEnv} {threadArgs args : List FwThreadArgument} {rc : Option ℤ}
variable {running : ℕ → Bool} {create : ℕ → ℤ}

/-! ### The creations -/

/-- How the creations end: behind the last device, before a device whose test
sees the flag cleared, or at a creation that fails; before that, `m` threads
were created. -/
theorem createThreads_cases (running : ℕ → Bool) (create : ℕ → ℤ) (i : ℕ)
    (args : List FwThreadArgument) (rc : Option ℤ) :
    ∃ m ≤ args.length, (∀ j < m, running (i + j) = true ∧ create (i + j) = 0) ∧
      (createThreads running create i args rc).1.length = m ∧
      ((m = args.length ∨ running (i + m) = false) ∧
          (createThreads running create i args rc).2 = (if m = 0 then rc else some 0) ∨
        m < args.length ∧ running (i + m) = true ∧ create (i + m) ≠ 0 ∧
          (createThreads running create i args rc).2 = some (create (i + m))) := by
  induction args generalizing i rc with
  | nil => exact ⟨0, le_rfl, fun j hj => absurd hj (Nat.not_lt_zero j), rfl, .inl ⟨.inl rfl, rfl⟩⟩
  | cons arg args ih =>
    by_cases hrun : running i = true
    · by_cases hcreate : create i = 0
      · obtain ⟨m, hm, hall, hlen, hend⟩ := ih (i + 1) (some 0)
        have hstep : createThreads running create i (arg :: args) rc =
            (arg :: (createThreads running create (i + 1) args (some 0)).1,
              (createThreads running create (i + 1) args (some 0)).2) := by
          rw [createThreads, if_pos hrun, if_pos hcreate]
        have hi : ∀ j, i + 1 + j = i + (j + 1) := fun j => by omega
        rw [hi] at hend
        refine ⟨m + 1, Nat.succ_le_succ hm, fun j hj => ?_, ?_, ?_⟩
        · rcases j with - | j
          · exact ⟨hrun, hcreate⟩
          · rw [← hi]
            exact hall j (Nat.lt_of_succ_lt_succ hj)
        · rw [hstep, List.length_cons, hlen]
        · rw [hstep]
          rcases hend with ⟨hstop, hrc⟩ | ⟨hlt, hrest⟩
          · refine .inl ⟨hstop.imp (congrArg (· + 1)) id, ?_⟩
            rw [hrc, if_neg (Nat.succ_ne_zero m), ite_self]
          · exact .inr ⟨Nat.succ_lt_succ hlt, hrest⟩
      · refine ⟨0, Nat.zero_le _, fun j hj => absurd hj (Nat.not_lt_zero j), ?_, .inr ?_⟩
        · rw [createThreads, if_pos hrun, if_neg hcreate]
          rfl
        · refine ⟨Nat.succ_pos _, hrun, hcreate, ?_⟩
          rw [createThreads, if_pos hrun, if_neg hcreate, Nat.add_zero]
    · refine ⟨0, Nat.zero_le _, fun j hj => absurd hj (Nat.not_lt_zero j), ?_, .inl ⟨.inr ?_, ?_⟩⟩
      · rw [createThreads, if_neg hrun]
        rfl
      · exact Bool.eq_false_iff.mpr hrun
      · rw [createThreads, if_neg hrun, if_pos rfl]

/-! ### The joins -/

theorem tryjoinLoop_uses (env : ThreadEnv) (i : ℕ) (id : Option Tid) (seconds totalSleep : ℕ)
    (rc : Option ℤ) :
    (∀ u ∈ (tryjoinLoop env i id seconds totalSleep rc).1, u = .tryjoin id) ∧
      Use.tryjoin id ∈ (tryjoinLoop env i id seconds totalSleep rc).1 := by
  induction seconds generalizing totalSleep with
  | zero =>
    rw [tryjoinLoop]
    split <;> exact ⟨fun u hu => List.mem_singleton.mp hu, List.mem_singleton_self _⟩
  | succ seconds ih =>
    rw [tryjoinLoop]
    split
    · exact ⟨fun u hu => List.mem_singleton.mp hu, List.mem_singleton_self _⟩
    split
    · exact ⟨fun u hu => List.mem_singleton.mp hu, List.mem_singleton_self _⟩
    · exact ⟨List.forall_mem_cons.mpr ⟨rfl, (ih (totalSleep + 1)).1⟩, List.mem_cons_self⟩

/-- A code that was assigned stays so. -/
theorem tryjoinLoop_code {i : ℕ} {id : Option Tid} {seconds totalSleep left : ℕ}
    {rc' : Option ℤ} (hrc : rc.isSome)
    (h : (tryjoinLoop env i id seconds totalSleep rc).2 = some (left, rc')) : rc'.isSome := by
  induction seconds generalizing totalSleep with
  | zero =>
    rw [tryjoinLoop] at h
    split at h
    · obtain ⟨-, rfl⟩ := Prod.mk.inj (Option.some.inj h)
      exact hrc
    · cases h
  | succ seconds ih =>
    rw [tryjoinLoop] at h
    split at h
    · obtain ⟨-, rfl⟩ := Prod.mk.inj (Option.some.inj h)
      exact hrc
    split at h
    · obtain ⟨-, rfl⟩ := Prod.mk.inj (Option.some.inj h)
      rfl
    · exact ih h

/-- After `FW_MAX_SEC_WAIT` seconds a thread is given up. -/
theorem tryjoinLoop_ends (env : ThreadEnv) (i : ℕ) (id : Option Tid) (rc : Option ℤ)
    {seconds totalSleep : ℕ} (htotal : totalSleep < FW_MAX_SEC_WAIT)
    (hseconds : FW_MAX_SEC_WAIT ≤ seconds + totalSleep) :
    ∃ left rc', (tryjoinLoop env i id seconds totalSleep rc).2 = some (left, rc') ∧
      seconds + totalSleep ≤ left + FW_MAX_SEC_WAIT := by
  induction seconds generalizing totalSleep with
  | zero => omega
  | succ seconds ih =>
    rw [tryjoinLoop]
    split
    · exact ⟨_, _, rfl, by omega⟩
    split
    · exact ⟨_, _, rfl, by omega⟩
    · next hmod =>
      have hlt : totalSleep + 1 < FW_MAX_SEC_WAIT := by
        unfold FW_MAX_SEC_WAIT at hmod htotal ⊢
        omega
      obtain ⟨left, rc', he, hle⟩ := ih hlt (by omega)
      exact ⟨left, rc', he, by omega⟩

/-- **Joins of threads that were all created** use nothing that was not
assigned. -/
theorem joinLoop_assigned {threads : List Tid} {n : ℕ} {is : List ℕ}
    (his : ∀ i ∈ is, ∃ j < n, (env.create j).1 = 0 ∧ threads[i]? = some (env.create j).2)
    (seconds k : ℕ) (hrc : rc.isSome) :
    ∀ u ∈ joinLoop env threads is seconds k rc, u.Assigned env n := by
  induction is generalizing seconds k rc with
  | nil =>
    intro u hu
    obtain rfl := List.mem_singleton.mp hu
    exact hrc
  | cons i is ih =>
    obtain ⟨⟨j, hj, hcreate, hid⟩, his⟩ := List.forall_mem_cons.mp his
    rw [joinLoop]
    rcases waitLoop env seconds k with - | ⟨seconds, k⟩
    · exact fun u hu => absurd hu List.not_mem_nil
    dsimp only
    have huses := (tryjoinLoop_uses env i threads[i]? seconds 0 rc).1
    rcases htry : tryjoinLoop env i threads[i]? seconds 0 rc with ⟨uses, r⟩
    rw [htry] at huses
    have hassigned : ∀ u ∈ uses, u.Assigned env n := by
      intro u hu
      rw [huses u hu]
      exact ⟨j, hj, hcreate, hid⟩
    rcases r with - | ⟨left, rc'⟩
    · exact hassigned
    · have hrc' : rc'.isSome := tryjoinLoop_code hrc (congrArg Prod.snd htry)
      intro u hu
      rcases List.mem_append.mp hu with hu | hu
      · exact hassigned u hu
      · rcases List.mem_cons.mp hu with rfl | hu
        · exact hrc'
        · exact ih his left k hrc' u hu

/-- With the flag cleared the wait is over at once. -/
theorem waitLoop_cleared {k : ℕ} (hk : env.keepRunning k = false) (seconds : ℕ) :
    waitLoop env seconds k = some (seconds, k + 1) := by
  cases seconds with
  | zero => rw [waitLoop, hk]; rfl
  | succ seconds => rw [waitLoop, hk]; rfl

/-- With the flag cleared and enough time every index is reached. -/
theorem joinLoop_reaches {threads : List Tid} {pre post : List ℕ} {i seconds k : ℕ}
    (hflag : ∀ j, k ≤ j → env.keepRunning j = false)
    (hseconds : FW_MAX_SEC_WAIT * pre.length ≤ seconds) :
    Use.tryjoin threads[i]? ∈ joinLoop env threads (pre ++ i :: post) seconds k rc := by
  induction pre generalizing seconds k rc with
  | nil =>
    rw [List.nil_append, joinLoop, waitLoop_cleared (hflag k le_rfl)]
    dsimp only
    have hmem := (tryjoinLoop_uses env i threads[i]? seconds 0 rc).2
    rcases htry : tryjoinLoop env i threads[i]? seconds 0 rc with ⟨uses, r⟩
    rw [htry] at hmem
    rcases r with - | ⟨left, rc'⟩
    · exact hmem
    · exact List.mem_append_left _ hmem
  | cons j pre ih =>
    rw [List.length_cons, Nat.mul_succ] at hseconds
    obtain ⟨left, rc', he, hle⟩ := tryjoinLoop_ends env j threads[j]? rc
      (by decide : 0 < FW_MAX_SEC_WAIT) (by omega : FW_MAX_SEC_WAIT ≤ seconds + 0)
    rw [List.cons_append, joinLoop, waitLoop_cleared (hflag k le_rfl)]
    dsimp only
    rcases htry : tryjoinLoop env j threads[j]? seconds 0 rc with ⟨uses, r⟩
    rw [htry] at he
    obtain rfl : r = some (left, rc') := he
    apply List.mem_append_right
    apply List.mem_cons_of_mem
    exact ih (fun l hl => hflag l (by omega)) (by omega)

/-! ### Exactly when -/

/-- With none skipped, what is used was assigned. -/
theorem NoCreationSkipped.usesAssigned (hne : threadArgs ≠ [])
    (h : NoCreationSkipped env threadArgs.length) : UsesAssigned env threadArgs := by
  intro seconds u hu
  have hpos : 0 < threadArgs.length := List.length_pos_iff.mpr hne
  unfold joinThreads at hu
  obtain ⟨m, hm, hall, hlen, hend⟩ := createThreads_cases env.keepRunning
    (fun i => (env.create i).1) 0 threadArgs none
  simp only [Nat.zero_add] at hall hend
  rcases hc : createThreads env.keepRunning (fun i => (env.create i).1) 0 threadArgs none with
    ⟨created, rc⟩
  simp only [hc] at hu hlen hend
  rcases hend with ⟨hstop, hrc⟩ | ⟨-, -, hfail, hrc⟩
  · -- the loop was not left before the last device
    have hmn : m = threadArgs.length := by
      rcases hstop with hmn | hclear
      · exact hmn
      · by_contra hmne
        unfold ThreadEnv.keepRunning at hclear hall
        rcases hsig : env.signal with - | p
        · rw [hsig] at hclear
          cases hclear
        · simp only [hsig, decide_eq_false_iff_not, decide_eq_true_eq] at hclear hall
          obtain ⟨i, hi, hfail⟩ := h p hsig (by omega)
          exact hfail (hall i (by omega)).2
    have hn0 : m ≠ 0 := fun h0 => by omega
    rw [hrc, if_neg hn0, if_neg (by decide)] at hu
    refine joinLoop_assigned (fun i hi => ?_) seconds _ rfl u hu
    have hi : i < threadArgs.length := List.mem_range.mp hi
    refine ⟨i, hi, (hall i (hmn ▸ hi)).2, ?_⟩
    rw [List.getElem?_map, List.getElem?_range (by omega)]
    rfl
  · -- a thread could not be created
    rw [hrc, if_pos] at hu
    · cases hu
    · simpa using hfail

/-- With the flag cleared before a creation, and none failed, the join loop
comes to an entry that was not filled. -/
theorem UsesAssigned.noneSkipped (h : UsesAssigned env threadArgs) :
    NoCreationSkipped env threadArgs.length := by
  intro p hsig hp
  by_contra hno
  have hcreate : ∀ i < p, (env.create i).1 = 0 := by
    intro i hi
    by_contra hfail
    exact hno ⟨i, hi, hfail⟩
  have hflag : ∀ k, env.keepRunning k = decide (k < p) := by
    intro k
    rw [ThreadEnv.keepRunning, hsig]
  obtain ⟨m, hm, hall, hlen, hend⟩ := createThreads_cases env.keepRunning
    (fun i => (env.create i).1) 0 threadArgs none
  simp only [Nat.zero_add, hflag, decide_eq_true_eq, decide_eq_false_iff_not] at hall hend
  have hmp : m ≤ p := by
    by_contra hlt
    exact absurd (hall p (by omega)).1 (Nat.lt_irrefl p)
  obtain ⟨rfl, hrc⟩ : m = p ∧ (createThreads env.keepRunning (fun i => (env.create i).1) 0
      threadArgs none).2 = if m = 0 then none else some 0 := by
    rcases hend with ⟨hstop, hrc⟩ | ⟨-, hlt, hfail, -⟩
    · exact ⟨by omega, hrc⟩
    · exact absurd (hcreate m hlt) hfail
  rcases hc : createThreads env.keepRunning (fun i => (env.create i).1) 0 threadArgs none with
    ⟨created, rc⟩
  rw [hc] at hlen hrc
  have hlen : created.length = m := hlen
  have hany : ¬ rc.any (· ≠ 0) = true := by
    have hrc : rc = if m = 0 then none else some 0 := hrc
    rw [hrc]
    split <;> decide
  -- the first entry that was not filled
  have hsplit : List.range threadArgs.length =
      List.range m ++ m :: (List.range (threadArgs.length - m - 1)).map (m + 1 + ·) := by
    have hsucc : List.range m ++ [m] = List.range (m + 1) := List.range_succ.symm
    rw [List.append_cons, hsucc, ← List.range_add]
    congr 1
    omega
  have huse : Use.tryjoin ((List.range created.length).map fun i => (env.create i).2)[m]? ∈
      joinThreads env threadArgs (FW_MAX_SEC_WAIT * m) := by
    unfold joinThreads
    rw [hc]
    simp only [if_neg hany]
    rw [hsplit]
    refine joinLoop_reaches (fun j hj => ?_) (by rw [List.length_range])
    rw [hflag]
    exact decide_eq_false (by omega)
  obtain ⟨i, -, -, hid⟩ := h _ _ huse
  rw [List.getElem?_eq_none (by rw [List.length_map, List.length_range, hlen])] at hid
  cases hid

/-- **Exactly when all that is used was assigned**: when the signal skips no
creation. -/
theorem usesAssigned_iff (hne : threadArgs ≠ []) :
    UsesAssigned env threadArgs ↔ NoCreationSkipped env threadArgs.length :=
  ⟨fun h => h.noneSkipped, fun h => h.usesAssigned hne⟩

/-- The signal comes before the first creation. -/
def envEarly : ThreadEnv where
  signal := some 0
  create := fun _ => (0, 1)
  tryjoin := fun _ _ => 0

theorem usesAssigned_iff_early :
    UsesAssigned envEarly [emptyEntry] ↔ NoCreationSkipped envEarly [emptyEntry].length :=
  usesAssigned_iff (List.cons_ne_nil _ _)

/-- One device, and no thread: its entry and the return code are used as they
are. -/
theorem not_usesAssigned_early :
    ¬ ∀ (env : ThreadEnv) (threadArgs : List FwThreadArgument), threadArgs ≠ [] →
      UsesAssigned env threadArgs := by
  intro hall
  have huse := hall envEarly [emptyEntry] (List.cons_ne_nil _ _) 0 (.tryjoin none) (by decide)
  obtain ⟨i, -, -, hid⟩ := huse
  cases hid

end SecuritySystem.Firewall
