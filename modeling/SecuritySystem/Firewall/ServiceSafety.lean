/-
SecuritySystem/Firewall/ServiceSafety.lean

What the firewall service does, in every run and every interleaving.

To its main thread a run is a run of the `ForkJoin` machine (`projects`), in
which a read of an argument is a use of what is shared.  Each capture thread
keeps what it keeps alone (`Linked`).  The rules are those of the set-up until
the main thread returns, and then those behind `free_and_exit`, whatever the
threads have done in between: so the service refines `cycle`, which knows
nothing of threads but their result (`service_refines`).
-/
import SecuritySystem.Firewall.Service

namespace SecuritySystem.Firewall

open CMem CString

variable {env : ServiceEnv} {setup : Setup} {s₀ s s' t : Service} {input : ServiceInput}
variable {inputs inputs' : List ServiceInput} {tr out outs : List ServiceLabel} {i : ℕ}

/-! ### Traces -/

@[simp] theorem mainTrace_append (tr out : List ServiceLabel) :
    mainTrace (tr ++ out) = mainTrace tr ++ mainTrace out := List.filterMap_append

@[simp] theorem threadTrace_append (i : ℕ) (tr out : List ServiceLabel) :
    threadTrace i (tr ++ out) = threadTrace i tr ++ threadTrace i out := List.filterMap_append

@[simp] theorem captureTrace_append (tr out : List ServiceLabel) :
    captureTrace (tr ++ out) = captureTrace tr ++ captureTrace out := List.filterMap_append

@[simp] theorem traces_main (ls : List ForkJoin.Label) :
    mainTrace (ls.map .main) = ls ∧ (∀ i, threadTrace i (ls.map .main) = []) ∧
      captureTrace (ls.map .main) = [] := by
  induction ls with
  | nil => exact ⟨rfl, fun _ => rfl, rfl⟩
  | cons l ls ih =>
    obtain ⟨hm, ht, hc⟩ := ih
    exact ⟨congrArg (l :: ·) hm, ht, hc⟩

/-- Among the labels of one thread. -/
theorem traces_thread (i : ℕ) (late : Bool) (ls : List CaptureLabel) :
    threadTrace i (ls.map (.thread i late)) = ls ∧
      (∀ j, j ≠ i → threadTrace j (ls.map (.thread i late)) = []) ∧
        captureTrace (ls.map (.thread i late)) = ls := by
  induction ls with
  | nil => exact ⟨rfl, fun _ _ => rfl, rfl⟩
  | cons l ls ih =>
    obtain ⟨hi, hj, hc⟩ := ih
    refine ⟨?_, fun j hne => ?_, congrArg (l :: ·) hc⟩
    · simp only [threadTrace, List.map_cons, List.filterMap_cons, if_true] at hi ⊢
      rw [hi]
    · have hne' : i ≠ j := Ne.symm hne
      have hrest := hj j hne
      simp only [threadTrace, List.map_cons, List.filterMap_cons, if_neg hne'] at hrest ⊢
      exact hrest

/-- A step of a thread reads its argument once, and first, or not at all. -/
theorem reads_cases {numPackets : ℤ} {g g' : Globals} {t t' : Capture} {ls : List CaptureLabel}
    (hs : CaptureStep numPackets g t t' g' ls) :
    .reads ∉ ls ∨ ∃ rest, ls = .reads :: rest ∧ .reads ∉ rest := by
  cases hs with
  | lookupnet | notOpened | otherLink => exact .inr ⟨[], rfl, List.not_mem_nil⟩
  | opened => exact .inr ⟨[.opened], rfl, by simp⟩
  | access =>
    refine .inl fun hmem => ?_
    exact (not_mem_handlerLabels _ _ _ _ hmem).1 rfl
  | _ => exact .inl (by simp)

theorem mainTrace_thread_of_not_mem {late : Bool} {ls : List CaptureLabel} (h : .reads ∉ ls) :
    mainTrace (ls.map (.thread i late)) = [] := by
  induction ls with
  | nil => rfl
  | cons l ls ih =>
    obtain ⟨hne, hnot⟩ := not_or.mp (mt List.mem_cons.mpr h)
    show List.filterMap _ _ = _
    rw [List.map_cons, List.filterMap_cons_none, ← mainTrace, ih hnot]
    cases l <;> first | rfl | exact absurd rfl hne

/-! ### What a step does -/

/-- Everything that a step of the service can do. -/
inductive ServiceStep (env : ServiceEnv) (setup : Setup) (s : Service) :
    ServiceInput → Service → List ServiceLabel → Prop
  | created {input : ForkJoin.Input} {m : ForkJoin.State} {i : ℕ} : input.own = true →
    (joinPlan setup.args.length).step s.main input = some (m, [.created i]) →
    s.main.pc ≠ .returned → m.pc ≠ .returned → m.workers = s.main.workers ++ [.running] →
    ServiceStep env setup s (.main input)
      { s with
        main := m
        captures := s.captures ++ [.start] } [.main (.created i)]
  | freed {input : ForkJoin.Input} {m : ForkJoin.State} : input.own = true →
    (joinPlan setup.args.length).step s.main input = some (m, [.freed]) →
    s.main.pc ≠ .returned → m = { s.main with pc := .returned, freed := true } →
    ServiceStep env setup s (.main input)
      { s with
        main := m
        world := (freeAndExit env.iptables (s.main.code.getD env.junk) s.world).2
        result := some (freeAndExit env.iptables (s.main.code.getD env.junk) s.world).1 }
      [.main .freed]
  | main {input : ForkJoin.Input} {m : ForkJoin.State} {ls : List ForkJoin.Label} :
    input.own = true → (joinPlan setup.args.length).step s.main input = some (m, ls) →
    s.main.pc ≠ .returned → m.pc ≠ .returned → m.workers.length = s.main.workers.length →
    (∀ i : ℕ, m.workers[i]? = some .running ↔ s.main.workers[i]? = some .running) →
    ServiceStep env setup s (.main input) { s with main := m } (ls.map .main)
  | ignored : env.ignored = true → ServiceStep env setup s .signal s []
  | signal : env.ignored = false →
    ServiceStep env setup s .signal
      { s with
        main.flag := false
        globals.fwKeepRunning := 0 } []
  | thread {i : ℕ} {input : CaptureInput} {t t' : Capture} {g' : Globals}
    {ls : List CaptureLabel} : s.main.workers[i]? = some .running → s.captures[i]? = some t →
    CaptureStep setup.numPackets s.globals t t' g' ls →
    ServiceStep env setup s (.thread i input)
      { s with
        captures := s.captures.set i t'
        globals := g' } (ls.map (.thread i s.main.freed))
  | ends {i : ℕ} {t : Capture} : s.captures[i]? = some t → t.pc = .exited →
    s.main.workers[i]? = some .running →
    ServiceStep env setup s (.ends i)
      { s with main.workers := s.main.workers.set i .ended } []

theorem getElem?_set_running {ws : List ForkJoin.Worker} {w : ForkJoin.Worker}
    (hw : ws[i]? = some .ended) (hne : w ≠ .running) (j : ℕ) :
    (ws.set i w)[j]? = some .running ↔ ws[j]? = some .running := by
  by_cases hj : j = i
  · subst hj
    rw [hw, List.getElem?_set_self (List.getElem?_eq_some_iff.mp hw).1]
    simp [hne]
  · rw [List.getElem?_set_ne (Ne.symm hj)]

theorem mainStep_cases {input : ForkJoin.Input} (hown : input.own = true)
    (h : s.mainStep env setup input = some (s', out)) :
    ServiceStep env setup s (.main input) s' out := by
  obtain ⟨⟨m, ls⟩, hm, he⟩ := Option.map_eq_some_iff.mp h
  obtain ⟨rfl, rfl⟩ := Prod.mk.inj he
  have hs := ForkJoin.step_cases hm
  rw [hown] at hs
  cases hs with
  | created i hpc => exact .created hown hm (by simp [hpc]) (by simp) rfl
  | freed hpc => exact .freed hown hm (by simp [hpc]) rfl
  | joined i total hpc hw =>
    exact .main hown hm (by simp [hpc]) (by simp) (by simp) (getElem?_set_running hw (by simp))
  | refused i hpc | allCreated i hpc | waited i hpc | allJoined i hpc =>
    exact .main hown hm (by simp [hpc]) (by simp) rfl fun _ => Iff.rfl
  | sleep i hpc => exact .main hown hm (by simp [hpc]) (by simp [hpc]) rfl fun _ => Iff.rfl
  | missing i total hpc | timedOut i total hpc | slept i total hpc =>
    exact .main hown hm (by simp [hpc]) (by simp) rfl fun _ => Iff.rfl

theorem serviceStep_cases (h : s.step env setup input = some (s', out)) :
    s.dead = false ∧ ServiceStep env setup s input s' out := by
  unfold Service.step at h
  split at h
  · cases h
  next hdead =>
  refine ⟨Bool.eq_false_iff.mpr hdead, ?_⟩
  cases input with
  | main input =>
    simp only at h
    split at h
    · next hown => exact mainStep_cases hown h
    · cases h
  | signal =>
    simp only [Service.signalStep] at h
    split at h
    · next hignored =>
      cases h
      exact .ignored hignored
    · next hignored =>
      cases h
      exact .signal (Bool.eq_false_iff.mpr hignored)
  | thread i input =>
    simp only [Service.threadStep] at h
    split at h
    · next t hw ht =>
      obtain ⟨⟨t', g', ls⟩, hstep, he⟩ := Option.map_eq_some_iff.mp h
      cases he
      exact .thread hw ht (Capture.step_cases hstep)
    · cases h
  | ends i =>
    simp only at h
    split at h
    · next t ht =>
      split at h
      · next hpc =>
        obtain ⟨⟨m, ls⟩, hm, he⟩ := Option.map_eq_some_iff.mp h
        obtain ⟨rfl, rfl⟩ := Prod.mk.inj he
        simp only [ForkJoin.Plan.step] at hm
        split at hm
        · next hw =>
          cases hm
          exact .ends ht hpc hw
        · cases hm
      · cases h
    · cases h

/-! ### The main thread of a run -/

/-- From `s₀` to `s` the main thread has made a run of its own, with so many
steps of its own. -/
def Projects (setup : Setup) (s₀ s : Service) (inputs : List ServiceInput)
    (tr : List ServiceLabel) : Prop :=
  ∃ is, (joinPlan setup.args.length).run s₀.main is = some (s.main, mainTrace tr) ∧
    is.countP ForkJoin.Input.own = inputs.countP ServiceInput.ofMain

theorem Projects.trans (h : Projects setup s₀ t inputs tr) (h' : Projects setup t s inputs' out) :
    Projects setup s₀ s (inputs ++ inputs') (tr ++ out) := by
  obtain ⟨is, hm, hmc⟩ := h
  obtain ⟨is', hm', hmc'⟩ := h'
  refine ⟨is ++ is', ?_, ?_⟩
  · rw [mainTrace_append]
    exact Machine.run_append_iff.mpr ⟨_, _, _, hm, hm', rfl⟩
  · rw [List.countP_append, List.countP_append, hmc, hmc']

theorem ServiceStep.projects (hs : ServiceStep env setup s input s' out) :
    Projects setup s s' [input] out := by
  cases hs with
  | @created input m i hown hm =>
    refine ⟨[input], Machine.run_single hm, ?_⟩
    rw [List.countP_singleton, hown]
    rfl
  | @freed input m hown hm =>
    refine ⟨[input], Machine.run_single hm, ?_⟩
    rw [List.countP_singleton, hown]
    rfl
  | @main input m ls hown hm =>
    refine ⟨[input], ?_, ?_⟩
    · rw [(traces_main _).1]
      exact Machine.run_single hm
    · rw [List.countP_singleton, hown]
      rfl
  | ignored => exact ⟨[], rfl, rfl⟩
  | signal => exact ⟨[.signal], rfl, rfl⟩
  | @thread i input t t' g' ls hw ht hstep =>
    obtain hnot | ⟨rest, rfl, hnot⟩ := reads_cases hstep
    · refine ⟨[], ?_, rfl⟩
      rw [mainTrace_thread_of_not_mem hnot]
      rfl
    · refine ⟨[.use i], ?_, rfl⟩
      show _ = some (s.main, .used i s.main.freed :: mainTrace (rest.map (.thread i s.main.freed)))
      rw [mainTrace_thread_of_not_mem hnot]
      apply Machine.run_single
      rw [ForkJoin.Plan.step, if_pos hw]
  | @ends i t ht hpc hw =>
    refine ⟨[.finish i], ?_, rfl⟩
    apply Machine.run_single
    rw [ForkJoin.Plan.step, if_pos hw]
    rfl

/-- **To its main thread a run of the service is a run of its own.** -/
theorem projects (h : s₀.run env setup inputs = some (s, tr)) :
    Projects setup s₀ s inputs tr := by
  induction inputs generalizing s₀ tr with
  | nil =>
    obtain ⟨rfl, rfl⟩ := Prod.mk.inj (Option.some.inj h)
    exact ⟨[], rfl, rfl⟩
  | cons input inputs ih =>
    obtain ⟨t, out, outs, ht, hrest, rfl⟩ := Machine.run_cons_iff.mp h
    exact (serviceStep_cases ht).2.projects.trans (ih hrest)

/-! ### What the threads have in common -/

/-- There is a thread for each worker, which works until it has come to its
end; the handler reads the flag of the main thread; and each thread keeps what
it keeps alone. -/
structure Linked (setup : Setup) (tr : List ServiceLabel) (s : Service) : Prop where
  length : s.captures.length = s.main.workers.length
  running : ∀ (i : ℕ) t, s.captures[i]? = some t → t.pc ≠ .exited →
    s.main.workers[i]? = some .running
  flag : s.globals.fwKeepRunning = if s.main.flag then 1 else 0
  capture : ∀ (i : ℕ) t, s.captures[i]? = some t →
    CaptureInv setup.numPackets (threadTrace i tr) t
  silent : ∀ i, s.captures.length ≤ i → threadTrace i tr = []

theorem linked_begin (env : ServiceEnv) (setup : Setup) (w : World) :
    Linked setup [] (.begin env setup w) where
  length := rfl
  running i t ht := by cases ht
  flag := rfl
  capture i t ht := by cases ht
  silent _ _ := rfl

/-- The handler clears no flag. -/
theorem fwKeepRunning_access {packet : List UInt8} {pc next : HandlerPc} {g g' : Globals}
    (h : Accesses packet g pc g' next) : g'.fwKeepRunning = g.fwKeepRunning := by
  cases h <;> rfl

theorem fwKeepRunning_step {numPackets : ℤ} {g g' : Globals} {t t' : Capture}
    {ls : List CaptureLabel} (hs : CaptureStep numPackets g t t' g' ls) :
    g'.fwKeepRunning = g.fwKeepRunning := by
  cases hs with
  | access hpc haccess => exact fwKeepRunning_access haccess
  | _ => rfl

/-- A step of the main thread that changes no worker that runs. -/
theorem Linked.main (h : Linked setup tr s) {m : ForkJoin.State} {ls : List ForkJoin.Label}
    (hlength : m.workers.length = s.main.workers.length)
    (hrunning : ∀ i : ℕ, m.workers[i]? = some .running ↔ s.main.workers[i]? = some .running)
    (hflag : m.flag = s.main.flag) :
    Linked setup (tr ++ ls.map .main) { s with main := m } where
  length := h.length.trans hlength.symm
  running i t ht hpc := (hrunning i).mpr (h.running i t ht hpc)
  flag := h.flag.trans (by rw [hflag])
  capture i t ht := by
    rw [threadTrace_append, (traces_main ls).2.1 i, List.append_nil]
    exact h.capture i t ht
  silent i hi := by
    rw [threadTrace_append, (traces_main ls).2.1 i, List.append_nil]
    exact h.silent i hi

theorem Linked.step (h : Linked setup tr s) (hs : ServiceStep env setup s input s' out) :
    Linked setup (tr ++ out) s' := by
  cases hs with
  | @created input m i hown hm _ _ hworkers =>
    have hflag : m.flag = s.main.flag := by
      have hsteps := ForkJoin.step_cases hm
      rw [hown] at hsteps
      exact ForkJoin.flag_of_own hsteps
    have htrace : ∀ j, threadTrace j (tr ++ [.main (.created i)]) = threadTrace j tr := fun j => by
      rw [threadTrace_append]
      exact List.append_nil _
    refine ⟨?_, fun j t ht hpc => ?_, ?_, fun j t ht => ?_, fun j hj => ?_⟩
    · show (s.captures ++ [Capture.start]).length = m.workers.length
      rw [hworkers, List.length_append, List.length_append, h.length]
      rfl
    · show m.workers[j]? = _
      rw [hworkers]
      rcases Nat.lt_or_ge j s.captures.length with hlt | hge
      · rw [List.getElem?_append_left hlt] at ht
        rw [List.getElem?_append_left (h.length ▸ hlt)]
        exact h.running j t ht hpc
      · rw [List.getElem?_append_right hge] at ht
        rw [List.getElem?_append_right (h.length ▸ hge), ← h.length]
        obtain ⟨hlt, -⟩ := List.getElem?_eq_some_iff.mp ht
        obtain hzero : j - s.captures.length = 0 := by simpa using hlt
        rw [hzero]
        rfl
    · show s.globals.fwKeepRunning = if m.flag then 1 else 0
      rw [hflag]
      exact h.flag
    · rw [htrace]
      rcases Nat.lt_or_ge j s.captures.length with hlt | hge
      · rw [List.getElem?_append_left hlt] at ht
        exact h.capture j t ht
      · rw [List.getElem?_append_right hge] at ht
        obtain rfl := List.mem_singleton.mp (List.mem_of_getElem? ht)
        rw [h.silent j hge]
        exact captureInv_start _
    · rw [htrace]
      refine h.silent j (Nat.le_trans ?_ hj)
      rw [List.length_append]
      exact Nat.le_add_right _ _
  | @freed input m hown hm _ hfree =>
    have hmain : Linked setup (tr ++ [ForkJoin.Label.freed].map .main) { s with main := m } :=
      h.main (by rw [hfree]) (fun _ => by rw [hfree]) (by rw [hfree])
    exact ⟨hmain.length, hmain.running, hmain.flag, hmain.capture, hmain.silent⟩
  | main hown hm _ _ hlength hrunning =>
    have hsteps := ForkJoin.step_cases hm
    rw [hown] at hsteps
    exact h.main hlength hrunning (ForkJoin.flag_of_own hsteps)
  | ignored =>
    rw [List.append_nil]
    exact h
  | signal =>
    rw [List.append_nil]
    exact ⟨h.length, h.running, rfl, h.capture, h.silent⟩
  | @thread i input t t' g' ls hw ht hstep =>
    have hi : i < s.captures.length := (List.getElem?_eq_some_iff.mp ht).1
    obtain ⟨hown, hother, -⟩ := traces_thread i s.main.freed ls
    refine ⟨?_, fun j u hu hpc => ?_, ?_, fun j u hu => ?_, fun j hj => ?_⟩
    · rw [List.length_set]
      exact h.length
    · by_cases hj : j = i
      · exact hj ▸ hw
      · rw [List.getElem?_set_ne (Ne.symm hj)] at hu
        exact h.running j u hu hpc
    · show g'.fwKeepRunning = _
      rw [fwKeepRunning_step hstep]
      exact h.flag
    · rw [threadTrace_append]
      by_cases hj : j = i
      · subst hj
        rw [List.getElem?_set_self hi] at hu
        obtain rfl := Option.some.inj hu
        rw [hown]
        exact (h.capture j t ht).step hstep
      · rw [List.getElem?_set_ne (Ne.symm hj)] at hu
        rw [hother j hj, List.append_nil]
        exact h.capture j u hu
    · rw [List.length_set] at hj
      rw [threadTrace_append, h.silent j hj, hother j (by omega)]
      rfl
  | @ends i t ht hpc hw =>
    rw [List.append_nil]
    refine ⟨?_, fun j u hu hne => ?_, h.flag, h.capture, h.silent⟩
    · rw [List.length_set]
      exact h.length
    · have hj : i ≠ j := by
        rintro rfl
        rw [ht] at hu
        exact hne (Option.some.inj hu ▸ hpc)
      rw [List.getElem?_set_ne hj]
      exact h.running j u hu hne

theorem Linked.run {w : World}
    (h : (Service.begin env setup w).run env setup inputs = some (s, tr)) :
    Linked setup tr s := by
  have hrun : Linked setup ([] ++ tr) s := Machine.run_invariant
    (fun hp hs => hp.step (serviceStep_cases hs).2) (linked_begin env setup w) h
  exact hrun

/-! ### The start -/

section Fill

variable {alldevs device : List PcapIf} {iface deviceName : CString}
variable {args args' : List FwThreadArgument}
variable {commonMutex : Bool} {devicesNum k : UInt8}

theorem length_setEntry (h : setEntry args k deviceName commonMutex = .ok args') :
    args'.length = args.length := by
  unfold setEntry at h
  split at h
  · cases h
  · obtain ⟨name, -, h⟩ := bind_eq_ok h
    obtain rfl := Except.ok.inj h
    exact List.length_set

theorem length_fillEntry {rest : List PcapIf}
    (h : fillEntry alldevs iface device k args = .ok (some (rest, args'))) :
    args'.length = args.length := by
  unfold fillEntry at h
  split at h
  · obtain ⟨args₁, hset, h⟩ := bind_eq_ok h
    cases h
    exact length_setEntry hset
  · split at h
    · cases h
    · split at h
      · cases h
      · obtain ⟨args₁, hset, h⟩ := bind_eq_ok h
        cases h
        exact length_setEntry hset

/-- The loop makes no entries and loses none. -/
theorem length_fillLoop {tests : ℕ}
    (h : fillLoop alldevs iface devicesNum tests device k args = some (.ok args')) :
    args'.length = args.length := by
  induction tests generalizing device k args with
  | zero => cases h
  | succ tests ih =>
    rw [fillLoop] at h
    split at h
    · rcases hfill : fillEntry alldevs iface device k args with e | r
      · rw [hfill] at h
        cases h
      · rw [hfill] at h
        rcases r with - | ⟨rest, args₁⟩
        · cases h
          rfl
        · exact (ih h).trans (length_fillEntry hfill)
    · cases h
      rfl

/-- There is at least one entry. -/
theorem threadArgs_ne_nil {tests : ℕ} {findalldevs : Option (List PcapIf)} {mutexInit : ℤ}
    (h : threadArgs tests iface findalldevs mutexInit = some (.ok (some args))) : args ≠ [] := by
  unfold threadArgs at h
  dsimp only at h
  generalize (if iface = FW_ATTR_IFACE_ALL then findalldevs.getD [] else []) = alldevs at h
  generalize (if iface = FW_ATTR_IFACE_ALL then countDevices alldevs 0 else FW_ONE_IFACE_SET) =
    devicesNum at h
  split at h
  · cases h
  next hzero =>
  split at h
  · cases h
  · obtain ⟨r, hloop, hr⟩ := Option.map_eq_some_iff.mp h
    rcases r with e | args₁
    · cases hr
    · obtain rfl : args₁ = args := Option.some.inj (Except.ok.inj hr)
      have hlength := length_fillLoop hloop
      rw [List.length_replicate] at hlength
      rintro rfl
      exact hzero (UInt8.toNat_inj.mp hlength.symm)

end Fill

/-- **How the service gets to its threads**: with an entry for each, behind a
set-up that went on to them. -/
theorem startService_cases {rules : Rules}
    (h : startService env rules = some (.ok (.serves setup s₀))) :
    setup.args ≠ [] ∧ ∃ w, start env.iptables setup.cfg ⟨rules, []⟩ = (.threads, w) ∧
      s₀ = .begin env setup w := by
  unfold startService at h
  split at h
  · split at h
    · cases h
    · cases h
    · cases h
    · split at h
      · cases h
      · split at h
        · cases h
        · cases h
        · cases h
        · next args hargs =>
          have h := Except.ok.inj (Option.some.inj h)
          unfold install at h
          split at h
          · cases h
          · next w hw =>
            obtain ⟨rfl, rfl⟩ := Started.serves.inj h
            exact ⟨threadArgs_ne_nil hargs, w, hw, rfl⟩
  · cases h

/-! ### Two runs -/

/-- A configuration for one interface, or for all of them. -/
def textFor (iface : String) : List UInt8 :=
  (lit ("interface: " ++ iface ++ "\nuntrusted_net: 192.168.0.0/24\ntrusted_net: 10.0.0.0/8\n" ++
    "packet_num: 1\n\n")).bytes ++ 0 :: []

/-- A fresh host with two devices. -/
def hostFor (iface : String) : ServiceEnv where
  redirected := true
  ignored := false
  buffer := some (textFor iface)
  wide := fun _ => 1
  findalldevs := some [eth0, lo]
  mutexInit := 0
  tests := 3
  iptables := envOf [256, 256, 256]
  junk := 0

/-- What a run from the start comes to. -/
def observe {α : Type} (env : ServiceEnv) (rules : Rules) (inputs : List ServiceInput)
    (f : Setup × Service × List ServiceLabel → α) : Option α :=
  match startService env rules with
  | some (.ok (.serves setup s₀)) => (s₀.run env setup inputs).map fun r => f (setup, r)
  | _ => none

theorem of_observe {α : Type} {f : Setup × Service × List ServiceLabel → α} {a : α} {rules : Rules}
    (h : observe env rules inputs f = some a) :
    ∃ setup s₀ s tr, startService env rules = some (.ok (.serves setup s₀)) ∧
      s₀.run env setup inputs = some (s, tr) ∧ f (setup, s, tr) = a := by
  unfold observe at h
  split at h
  · next setup s₀ hstart =>
    obtain ⟨⟨s, tr⟩, hrun, h⟩ := Option.map_eq_some_iff.mp h
    exact ⟨setup, s₀, s, tr, hstart, hrun, h⟩
  · cases h

/-- A thread sets its capture up. -/
def setUpInputs (i : ℕ) : List ServiceInput :=
  [0, 0, 1, 1, 0, 0, 0].map fun r => .thread i (.call r)

/-- One device: its thread handles a packet from the untrusted network and comes
to its end, then SIGINT, and the join. -/
def oneCapture : List ServiceInput :=
  [.main (.created 0), .main .go] ++ setUpInputs 0 ++
    [.thread 0 (.packet (packetFrom 0x0100a8c0))] ++ List.replicate 12 (.thread 0 .go) ++
    [.ends 0, .signal, .main .go, .main .go, .main .go, .main .go]

/-- Two devices: the second thread cannot be created, and the first reads its
argument behind `free`. -/
def lateCapture : List ServiceInput :=
  [.main (.created 0), .main (.created 11), .thread 0 (.call 0), .main .go, .thread 0 (.call 0)]

/-! ### The rules -/

/-- The rules of the set-up stay until the main thread returns; then they are
those behind `free_and_exit`. -/
structure Ruled (env : ServiceEnv) (w : World) (s : Service) : Prop where
  before : s.main.pc ≠ .returned → s.world = w ∧ s.result = none
  behind : s.main.pc = .returned →
    (∃ rc, rc = s.main.code.getD env.junk ∧ s.result = some (Int.lor rc 0)) ∧
      s.world = w.exit env.iptables

theorem Ruled.step {w : World} (h : Ruled env w s) (hs : ServiceStep env setup s input s' out) :
    Ruled env w s' := by
  cases hs with
  | created _ _ hpc hpc' => exact ⟨fun _ => h.before hpc, fun hret => absurd hret hpc'⟩
  | main _ _ hpc hpc' => exact ⟨fun _ => h.before hpc, fun hret => absurd hret hpc'⟩
  | freed _ _ hpc hm =>
    obtain ⟨hworld, -⟩ := h.before hpc
    subst hm
    refine ⟨fun hno => absurd rfl hno, fun _ => ⟨⟨_, rfl, ?_⟩, ?_⟩⟩
    · rw [freeAndExit_run]
    · rw [freeAndExit_run, hworld]
  | ignored => exact h
  | signal => exact ⟨h.before, h.behind⟩
  | thread => exact ⟨h.before, h.behind⟩
  | ends => exact ⟨h.before, h.behind⟩

theorem Ruled.run {w : World}
    (h : (Service.begin env setup w).run env setup inputs = some (s, tr)) :
    Ruled env w s :=
  Machine.run_keeps (P := Ruled env w) (fun hp hs => hp.step (serviceStep_cases hs).2)
    ⟨fun _ => ⟨rfl, rfl⟩, fun hret => by cases hret⟩ h

theorem mem_mainTrace (l : ForkJoin.Label) (h : l ∈ mainTrace tr) :
    .main l ∈ tr ∨ ∃ i late, l = .used i late ∧ .thread i late .reads ∈ tr := by
  obtain ⟨x, hx, hl⟩ := List.mem_filterMap.mp h
  rcases x with l' | ⟨i, late, l'⟩
  · obtain rfl := Option.some.inj hl
    exact .inl hx
  · cases l' with
    | reads =>
      obtain rfl := Option.some.inj hl
      exact .inr ⟨i, late, rfl, hx⟩
    | _ => cases hl

/-- All labels of the main thread but the reads are its own. -/
theorem main_mem {l : ForkJoin.Label} (h : l ∈ mainTrace tr) (hne : ∀ i late, l ≠ .used i late) :
    .main l ∈ tr := by
  rcases mem_mainTrace l h with hmem | ⟨i, late, rfl, -⟩
  · exact hmem
  · exact absurd rfl (hne i late)

theorem lor_zero_zero : Int.lor 0 0 = 0 := by
  show ((0 ||| 0 : ℕ) : ℤ) = 0
  rfl

/-- Behind a set-up that creates the threads, a cycle is the clean-up. -/
theorem cycle_of_threads {iptables : Env} {cfg : FwConfigAttrs} {w₀ w : World}
    (hw : start iptables cfg w₀ = (.threads, w)) (rc : ℤ) :
    cycle iptables cfg rc w₀ = (Int.lor rc 0, w.exit iptables) := by
  unfold cycle
  rw [bind_run, hw]
  show freeAndExit iptables rc w = _
  rw [freeAndExit_run]

/-- **The service refines `cycle`.**  Until the main thread returns, the rules
are those that the set-up has left, whatever the threads do.  When it returns,
rules and return code are those of a cycle, with 0 as the result of the threads
if all of them were joined, and -1 if one could not be created or was given
up. -/
theorem service_refines {rules : Rules}
    (hstart : startService env rules = some (.ok (.serves setup s₀)))
    (h : s₀.run env setup inputs = some (s, tr)) :
    (s.main.pc ≠ .returned →
      start env.iptables setup.cfg ⟨rules, []⟩ = (.threads, s.world) ∧ s.result = none) ∧
    (s.main.pc = .returned → ∃ rc,
      cycle env.iptables setup.cfg rc ⟨rules, []⟩ = (rc, s.world) ∧ s.result = some rc ∧
        (rc = 0 ∧ (∀ i < setup.args.length, .main (.joined i) ∈ tr) ∨
          rc = -1 ∧ ∃ i, .main (.refused i) ∈ tr ∨ .main (.timedOut i) ∈ tr)) := by
  obtain ⟨hargs, w, hw, rfl⟩ := startService_cases hstart
  have hruled := Ruled.run h
  obtain ⟨is, hmain, -⟩ := projects h
  have haccounts := (ForkJoin.run_accounts hmain).2
  refine ⟨fun hpc => ?_, fun hpc => ?_⟩
  · obtain ⟨hworld, hresult⟩ := hruled.before hpc
    exact ⟨by rw [hw, hworld], hresult⟩
  · obtain ⟨⟨rc, hrc, hresult⟩, hworld⟩ := hruled.behind hpc
    have hcycle : ∀ rc, cycle env.iptables setup.cfg rc ⟨rules, []⟩ = (Int.lor rc 0, s.world) :=
      hworld ▸ cycle_of_threads hw
    rcases (haccounts.returned hpc).2 with ⟨hcode, j, hj⟩ | ⟨hcode, hjoined⟩
    · have hrc : rc = -1 := by
        rw [hrc, hcode]
        rfl
      have hlor : Int.lor rc 0 = -1 := by
        rw [hrc]
        exact lor_error_zero
      refine ⟨-1, ?_, hresult.trans (congrArg some hlor), .inr ⟨rfl, j, hj.imp ?_ ?_⟩⟩
      · rw [hcycle, ← hrc, hlor, hrc]
      · exact fun hj => main_mem hj (by simp)
      · exact fun hj => main_mem hj (by simp)
    · have hcount : (joinPlan setup.args.length).count ≠ 0 := by
        show setup.args.length ≠ 0
        exact mt List.length_eq_zero_iff.mp hargs
      have hrc : rc = 0 := by
        rw [hrc, hcode, if_neg hcount]
        rfl
      have hlor : Int.lor rc 0 = 0 := by
        rw [hrc, lor_zero_zero]
      refine ⟨0, ?_, hresult.trans (congrArg some hlor), .inl ⟨rfl, fun i hi => ?_⟩⟩
      · rw [hcycle, lor_zero_zero]
      · exact main_mem (hjoined i hi) (by simp)

/-- One device, whose thread is joined. -/
theorem refines_oneCapture :
    ∃ setup s₀ s tr, startService (hostFor "eth0") emptyRules = some (.ok (.serves setup s₀)) ∧
      s₀.run (hostFor "eth0") setup oneCapture = some (s, tr) ∧ s.result = some 0 ∧
      ∃ rc, cycle (hostFor "eth0").iptables setup.cfg rc ⟨emptyRules, []⟩ = (rc, s.world) := by
  have hrun : observe (hostFor "eth0") emptyRules oneCapture
      (fun r => (r.2.1.main.pc, r.2.1.result)) = some (.returned, some 0) := by decide +kernel
  obtain ⟨setup, s₀, s, tr, hstart, hrun, he⟩ := of_observe hrun
  obtain ⟨hpc, hresult⟩ := Prod.mk.inj he
  obtain ⟨rc, hcycle, -⟩ := (service_refines hstart hrun).2 hpc
  exact ⟨setup, s₀, s, tr, hstart, hrun, hresult, rc, hcycle⟩

/-! ### The accounts -/

/-- What a run has done, for its maintainer. -/
structure ServiceAccounts (setup : Setup) (s : Service) (tr : List ServiceLabel) : Prop where
  /-- an argument is read behind its `free` only by a thread that was given up,
  or behind which another one could not be created -/
  late : ∀ i, .thread i true .reads ∈ tr →
    .main (.timedOut i) ∈ tr ∨ ∃ j, i < j ∧ .main (.refused j) ∈ tr
  /-- `start` returns 0 only behind the ends of all threads, none of which has
  read anything late -/
  orderly : s.result = some 0 → ∀ i < setup.args.length, .main (.joined i) ∈ tr ∧
    (∃ t, s.captures[i]? = some t ∧ t.pc = .exited) ∧ .thread i true .reads ∉ tr
  /-- the arguments are freed at most once -/
  once : tr.count (.main .freed) ≤ 1
  /-- a thread does not read its argument behind its call of `pcap_loop` -/
  order : ∀ i, (threadTrace i tr).Pairwise fun a b => a = .looped → b ≠ .reads
  /-- a thread that the handler ends leaves its handle open -/
  dropped : ∀ i packet, .dropped packet ∈ threadTrace i tr → .closed ∉ threadTrace i tr
  /-- `pcap_loop` has returned, so that its handle is or will be closed, because
  of an error or with the last packet that it should see -/
  finished : ∀ i, .closed ∈ threadTrace i tr ∨
      (∃ t, s.captures[i]? = some t ∧ t.pc.doneLoop = true) →
    .broken ∈ threadTrace i tr ∨ ((packetsOf (threadTrace i tr)).length : ℤ) = setup.numPackets
  limit : 0 < setup.numPackets → ∀ i,
    ((packetsOf (threadTrace i tr)).length : ℤ) ≤ setup.numPackets
  /-- a thread that was never created is joined only behind a cleared flag -/
  fault : s.main.pc = .fault → s.main.workers.length < setup.args.length

theorem count_freed_mainTrace (tr : List ServiceLabel) :
    (mainTrace tr).count .freed = tr.count (.main .freed) := by
  induction tr with
  | nil => rfl
  | cons l tr ih =>
    rw [mainTrace] at ih
    cases l with
    | main l => simp [mainTrace, List.count_cons, ih]
    | thread i late l => cases l <;> simp [mainTrace, ih]

theorem mainTrace_reads (h : .thread i true .reads ∈ tr) : .used i true ∈ mainTrace tr :=
  List.mem_filterMap.mpr ⟨_, h, rfl⟩

/-- What is known of each thread, whether it was created or not. -/
theorem Linked.trace (h : Linked setup tr s) (i : ℕ) :
    threadTrace i tr = [] ∨ ∃ t, CaptureInv setup.numPackets (threadTrace i tr) t := by
  rcases Nat.lt_or_ge i s.captures.length with hlt | hge
  · exact .inr ⟨s.captures[i], h.capture i _ (List.getElem?_eq_getElem hlt)⟩
  · exact .inl (h.silent i hge)

/-- With 0 no failure was noted, so all threads are joined. -/
theorem ended_of_result {w : World}
    (h : (Service.begin env setup w).run env setup inputs = some (s, tr))
    (hresult : s.result = some 0) (hi : i < setup.args.length) :
    .joined i ∈ mainTrace tr ∧ (∃ t, s.captures[i]? = some t ∧ t.pc = .exited) ∧
      ∀ j, .refused j ∉ mainTrace tr ∧ .timedOut j ∉ mainTrace tr := by
  obtain ⟨is, hmain, -⟩ := projects h
  obtain ⟨hinv, haccounts⟩ := ForkJoin.run_accounts hmain
  have hlinked := Linked.run h
  have hruled := Ruled.run h
  have hpc : s.main.pc = .returned := by
    by_contra hpc
    rw [(hruled.before hpc).2] at hresult
    cases hresult
  obtain ⟨⟨rc, hrc, hrc'⟩, -⟩ := hruled.behind hpc
  have hcode : s.main.code ≠ some (-1) := by
    intro hcode
    rw [hcode] at hrc
    rw [hrc', hrc] at hresult
    have hbad : Int.lor (-1) 0 = 0 := Option.some.inj hresult
    rw [show Int.lor (-1) 0 = -1 from lor_error_zero] at hbad
    exact absurd hbad (by decide)
  have hjoined : .joined i ∈ mainTrace tr := by
    rcases (haccounts.returned hpc).2 with ⟨hfail, -⟩ | ⟨-, hjoined⟩
    · exact absurd hfail hcode
    · exact hjoined i hi
  have hworker := hinv.joined i hjoined
  have hlt : i < s.captures.length := by
    rw [hlinked.length]
    exact (List.getElem?_eq_some_iff.mp hworker).1
  have hcapture : s.captures[i]? = some s.captures[i] := List.getElem?_eq_getElem hlt
  refine ⟨hjoined, ⟨_, hcapture, ?_⟩, ?_⟩
  · by_contra hrunning
    rw [hlinked.running i _ hcapture hrunning] at hworker
    cases hworker
  · rcases hinv.code with ⟨hfail, -⟩ | ⟨-, hnone⟩
    · exact absurd hfail hcode
    · exact hnone

/-- **The accounts of every run**, whatever the interleaving. -/
theorem service_accounts {rules : Rules}
    (hstart : startService env rules = some (.ok (.serves setup s₀)))
    (h : s₀.run env setup inputs = some (s, tr)) : ServiceAccounts setup s tr := by
  obtain ⟨hargs, w, hw, rfl⟩ := startService_cases hstart
  obtain ⟨is, hmain, -⟩ := projects h
  obtain ⟨hinv, haccounts⟩ := ForkJoin.run_accounts hmain
  have hlinked := Linked.run h
  have hlate : ∀ i, .thread i true .reads ∈ tr →
      .timedOut i ∈ mainTrace tr ∨ ∃ j, i < j ∧ .refused j ∈ mainTrace tr := fun i hi =>
    haccounts.late i (mainTrace_reads hi)
  refine ⟨fun i hi => ?_, fun hresult i hi => ?_, ?_, fun i => ?_, fun i packet hmem => ?_,
    fun i hended => ?_, fun hpos i => ?_, fun hpc => (haccounts.fault hpc).2⟩
  · rcases hlate i hi with ht | ⟨j, hij, hj⟩
    · exact .inl (main_mem ht (by simp))
    · exact .inr ⟨j, hij, main_mem hj (by simp)⟩
  · obtain ⟨hjoined, hexited, hnone⟩ := ended_of_result h hresult hi
    refine ⟨main_mem hjoined (by simp), hexited, fun hmem => ?_⟩
    rcases hlate i hmem with ht | ⟨j, -, hj⟩
    · exact (hnone i).2 ht
    · exact (hnone j).1 hj
  · rw [← count_freed_mainTrace]
    exact haccounts.once
  · rcases hlinked.trace i with hnil | ⟨t, ht⟩
    · rw [hnil]
      exact List.Pairwise.nil
    · exact ht.order
  · rcases hlinked.trace i with hnil | ⟨t, ht⟩
    · rw [hnil] at hmem
      cases hmem
    · exact (ht.dropped packet hmem).2
  · rcases hended with hmem | ⟨t, ht, hpc⟩
    · rcases hlinked.trace i with hnil | ⟨t, ht⟩
      · rw [hnil] at hmem
        cases hmem
      · exact ht.finished (.inr hmem)
    · exact (hlinked.capture i t ht).finished (.inl hpc)
  · rcases hlinked.trace i with hnil | ⟨t, ht⟩
    · rw [hnil]
      exact hpos.le
    · exact ht.length_le hpos

/-- The first thread reads its argument late. -/
theorem accounts_lateCapture :
    ∃ setup s₀ s tr, startService (hostFor "all") emptyRules = some (.ok (.serves setup s₀)) ∧
      s₀.run (hostFor "all") setup lateCapture = some (s, tr) ∧
      ServiceLabel.thread 0 true .reads ∈ tr ∧ ServiceAccounts setup s tr := by
  have hrun : observe (hostFor "all") emptyRules lateCapture
      (fun r => decide (ServiceLabel.thread 0 true .reads ∈ r.2.2)) = some true := by
    decide +kernel
  obtain ⟨setup, s₀, s, tr, hstart, hrun, he⟩ := of_observe hrun
  exact ⟨setup, s₀, s, tr, hstart, hrun, of_decide_eq_true he, service_accounts hstart hrun⟩

end SecuritySystem.Firewall
