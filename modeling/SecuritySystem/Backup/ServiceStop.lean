/-
SecuritySystem/Backup/ServiceStop.lean

The end of the backup service.

Behind SIGINT each of the three threads makes a bounded number of steps,
whatever the other two do and however the steps are interleaved.  `start`
needs none of the steps of the other threads to return: it gives a thread up
that does not end in time.
-/
import SecuritySystem.Backup.ServiceSafety

namespace SecuritySystem.Backup

open CMem CString

variable {env : StartEnv} {s₀ s s' : Service} {inputs inputs' : List ServiceInput}
variable {tr tr' : List ServiceLabel}

/-- Behind the signal the scan finds the flag cleared. -/
theorem scanInputs_clear (hflag : s.main.flag = false) (h : s.run env inputs = some (s', tr)) :
    ∀ found ∈ scanInputs tr, found.keepRunning = false := by
  have hstart : s.main.flag = false ∧ ∀ found ∈ scanInputs [], found.keepRunning = false :=
    ⟨hflag, fun _ hmem => absurd hmem List.not_mem_nil⟩
  have hrun := Machine.run_invariant
    (P := fun tr s => s.main.flag = false ∧ ∀ found ∈ scanInputs tr, found.keepRunning = false)
    (fun {tr s input s' out} hp hs => ?_) hstart h
  · exact hrun.2
  have hstep := (serviceStep_cases hs).2
  refine ⟨hstep.flag.elim (fun hsame => hsame.trans hp.1) And.right, fun found hmem => ?_⟩
  rw [scanInputs_append] at hmem
  rcases List.mem_append.mp hmem with hmem | hmem
  · exact hp.2 found hmem
  · cases hstep with
    | main | scanEnds | dirEnds =>
      rw [(traces_main _).2.2] at hmem
      cases hmem
    | ignored => cases hmem
    | signal =>
      rw [(traces_dir _).2.2] at hmem
      cases hmem
    | @scan _ _ ls =>
      rcases List.mem_cons.mp hmem with rfl | hmem
      · exact hp.1
      · change found ∈ scanInputs (ls.map .dir) at hmem
        rw [(traces_dir _).2.2] at hmem
        cases hmem
    | @dir _ _ ls =>
      change found ∈ scanInputs (ls.map .dir) at hmem
      rw [(traces_dir _).2.2] at hmem
      cases hmem

/-- A run of the main thread alone. -/
theorem run_main {is : List ForkJoin.Input} {m : ForkJoin.State} {ls : List ForkJoin.Label}
    (halive : s.dead = false) (hown : ∀ i ∈ is, i.own = true)
    (h : startPlan.run s.main is = some (m, ls)) :
    s.run env (is.map .main) = some ({ s with main := m }, ls.map .main) := by
  induction is generalizing s ls with
  | nil =>
    obtain ⟨rfl, rfl⟩ := Prod.mk.inj (Option.some.inj h)
    rfl
  | cons i is ih =>
    obtain ⟨hi, his⟩ := List.forall_mem_cons.mp hown
    obtain ⟨t, out, outs, ht, hrest, rfl⟩ := Machine.run_cons_iff.mp h
    refine Machine.run_cons_iff.mpr ⟨{ s with main := t }, out.map .main, outs.map .main, ?_,
      ih (s := { s with main := t }) halive his hrest, List.map_append⟩
    simp only [Service.step, halive, Bool.false_eq_true, if_false, hi, if_true, Service.mainStep,
      ht, Option.map_some]

/-- **SIGINT ends the service.**  Once the flag is cleared, each thread makes a
bounded number of steps in every continuation: the main thread 67, the scan
10004, and the event thread four for each event that is still queued and
eleven more; and unless a thread has ended the process, `start` can return
without a step of any other thread. -/
theorem start_stops (hstart : start env = .ok (some s₀)) (h : s₀.run env inputs = some (s, tr))
    (hflag : s.main.flag = false) :
    (∀ inputs' s' tr', s.run env inputs' = some (s', tr') →
      inputs'.countP ServiceInput.ofMain ≤ 67 ∧ inputs'.countP ServiceInput.ofScan ≤ 10004 ∧
        inputs'.countP ServiceInput.ofDir ≤ 4 * pending (loopTrace (dirTrace tr)) + 11) ∧
    (s.dead = false → ∃ inputs' s' tr', (∀ input ∈ inputs', input.ofMain = true) ∧
      s.run env inputs' = some (s', tr') ∧ s'.main.pc = .returned) := by
  obtain ⟨parsed, hashTable, -, -, -, rfl⟩ := start_cases hstart
  have hproj := projects h
  obtain ⟨is, hmain, -⟩ := hproj.main
  obtain ⟨ds, hdir, -⟩ := hproj.dir
  obtain ⟨hbound, inputs', m, ls, hown, hrun, hfinal⟩ := ForkJoin.run_stops hmain hflag
  constructor
  · intro inputs' s' tr' hrest
    have hproj' := projects hrest
    obtain ⟨is', hmain', hcount⟩ := hproj'.main
    obtain ⟨ds', hdir', hcount'⟩ := hproj'.dir
    refine ⟨?_, ?_, ?_⟩
    · rw [← hcount]
      exact hbound is' _ _ hmain'
    · have horder : s.scan.Orderly env.scan :=
        ScanThread.Orderly.keep (s := .start _ _) trivial hproj.scan.1
      have hle := horder.run (scanInputs_clear hflag hrest) hproj'.scan.1
      have hmax := horder.rank_le
      rw [← hproj'.scan.2]
      omega
    · -- the event thread sees the same flag
      have hclear : s.dir.loop.keepRunning = false := (Linked.run h).flag ▸ hflag
      have hle := Machine.countP_le_rank
        (P := fun tr d => DirInv _ tr d ∧ d.loop.keepRunning = false) (fun tr d => d.rank tr)
        DirInput.own
        (fun hp hs => ⟨⟨hp.1.step (step_cases hs), (hp.1.rank_step hp.2 (step_cases hs)).1⟩,
          (hp.1.rank_step hp.2 (step_cases hs)).2⟩) ⟨(DirInv.run hdir).1, hclear⟩ hdir'
      have hmax := rank_le (dirTrace tr) s.dir
      rw [← hcount']
      omega
  · intro halive
    refine ⟨inputs'.map .main, _, _, ?_, run_main halive hown hrun, ?_⟩
    · intro input hmem
      obtain ⟨i, -, rfl⟩ := List.mem_map.mp hmem
      rfl
    · refine hfinal.resolve_right fun hfault => ?_
      have hall : startPlan.run (startPlan.start true) (is ++ inputs') =
          some (m, mainTrace tr ++ ls) :=
        Machine.run_append_iff.mpr ⟨_, _, _, hmain, hrun, rfl⟩
      have hguarded := ((ForkJoin.run_accounts hall).2.fault hfault).1
      cases hguarded

/-- The signal comes while the event thread frees a block. -/
theorem stops_shutdown :
    ∃ s₀ s tr, start startUnopened = .ok (some s₀) ∧
      s₀.run startUnopened (shutdown.take 21) = some (s, tr) ∧
      (∀ inputs' s' tr', s.run startUnopened inputs' = some (s', tr') →
        inputs'.countP ServiceInput.ofMain ≤ 67 ∧ inputs'.countP ServiceInput.ofScan ≤ 10004 ∧
          inputs'.countP ServiceInput.ofDir ≤ 4 * pending (loopTrace (dirTrace tr)) + 11) ∧
      ∃ inputs' s' tr', (∀ input ∈ inputs', input.ofMain = true) ∧
        s.run startUnopened inputs' = some (s', tr') ∧ s'.main.pc = .returned := by
  have hrun : observe startUnopened (shutdown.take 21) (fun r => (r.1.main.flag, r.1.dead)) =
      some (false, false) := by decide +kernel
  obtain ⟨s₀, s, tr, hstart, hrun, he⟩ := of_observe hrun
  obtain ⟨hflag, halive⟩ := Prod.mk.inj he
  obtain ⟨hbound, hreturns⟩ := start_stops hstart hrun hflag
  exact ⟨s₀, s, tr, hstart, hrun, hbound, hreturns halive⟩

end SecuritySystem.Backup
