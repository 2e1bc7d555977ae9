/-
SecuritySystem/Firewall/ServiceStop.lean

The end of the firewall service.

Behind SIGINT the main thread and each capture thread make a bounded number of
steps, whatever the others do.  `start` needs none of the steps of its threads
to come to its end, since it gives a thread up that does not end in time.  But a
thread that waits for a packet notices nothing of the signal: it ends when the
next packet comes, so on a network without traffic `start` gives it up, and
returns an error.
-/
import SecuritySystem.Firewall.ServiceSafety

namespace SecuritySystem.Firewall

open CMem CString

variable {env : ServiceEnv} {setup : Setup} {s₀ s s' : Service} {input : ServiceInput}
variable {inputs : List ServiceInput} {tr out : List ServiceLabel} {i : ℕ}
variable {numPackets : ℤ} {g g' : Globals} {t t' : Capture} {ls : List CaptureLabel}

/-! ### One thread -/

/-- How many steps a call of the handler has left, at most, with those of the
thread behind it. -/
def HandlerPc.rank : HandlerPc → ℕ
  | .threadExit => 1
  | .test => 2
  | .returned => 4
  | .rest => 5
  | .storeCounter _ => 6
  | .loadCounter => 7
  | .testSource => 8
  | .storeSource => 9
  | .storeCount _ => 10
  | .loadCount => 11
  | .clear => 12

/-- How many steps a thread has left, at most, with the flag cleared. -/
def CapturePc.rank : CapturePc → ℕ
  | .exited | .fault _ => 0
  | .close => 1
  | .freecode => 2
  | .capturing => 3
  | .handler _ pc => pc.rank
  | .disable => 4
  | .setfilter => 5
  | .compile => 6
  | .datalink => 7
  | .openLive => 8
  | .lookupnet => 9
  | .enable => 10

theorem rank_le (pc : CapturePc) : pc.rank ≤ 12 := by
  cases pc with
  | handler packet pc => cases pc <;> simp [CapturePc.rank, HandlerPc.rank]
  | _ => simp [CapturePc.rank]

/-- Each step of a thread lowers its rank. -/
theorem rank_step (hflag : g.fwKeepRunning = 0) (hs : CaptureStep numPackets g t t' g' ls) :
    t'.pc.rank + 1 ≤ t.pc.rank := by
  cases hs with
  | access hpc haccess =>
    cases haccess with
    | goesOn hrun => exact absurd hflag hrun
    | _ => simp [hpc, CapturePc.rank, HandlerPc.rank]
  | @faulted packet pc e hpc =>
    rw [hpc]
    cases pc <;> simp [CapturePc.rank, HandlerPc.rank]
  | seen hpc =>
    rcases Capture.afterPacket_pc numPackets t with hafter | hafter <;>
      simp [hpc, hafter, CapturePc.rank, HandlerPc.rank]
  | exits hpc | enabled hpc | notEnabled hpc | notOpened hpc | opened hpc | noHandle hpc
  | datalink hpc | otherLink hpc | disabled hpc | notDisabled hpc | broken hpc | freecode hpc
  | closed hpc => simp [hpc, CapturePc.rank, HandlerPc.rank, Capture.behind]
  | lookupnet failed hpc | compile failed hpc | setfilter failed hpc | packet bytes hpc =>
    simp [hpc, CapturePc.rank, HandlerPc.rank, Capture.behind]
  | cancelled hpc =>
    cases h : t.pc with
    | openLive | datalink | compile | setfilter | disable => simp [CapturePc.rank]
    | _ =>
      rw [h] at hpc
      cases hpc

/-- The rank of a thread, created or not. -/
def Service.rankOf (s : Service) (i : ℕ) : ℕ :=
  match s.captures[i]? with
  | some t => t.pc.rank
  | none => CapturePc.rank .enable

theorem rankOf_le (s : Service) (i : ℕ) : s.rankOf i ≤ 12 := by
  unfold Service.rankOf
  split
  · exact rank_le _
  · exact rank_le _

theorem rankOf_step (hflag : s.globals.fwKeepRunning = 0)
    (hs : ServiceStep env setup s input s' out) (i : ℕ) :
    s'.rankOf i + (if input.ofThread i then 1 else 0) ≤ s.rankOf i := by
  cases hs with
  | created =>
    simp only [Service.rankOf, ServiceInput.ofThread, Bool.false_eq_true, if_false, Nat.add_zero]
    rcases Nat.lt_trichotomy i s.captures.length with hlt | heq | hgt
    · rw [List.getElem?_append_left hlt]
    · rw [List.getElem?_append_right heq.ge, heq, Nat.sub_self, List.getElem?_eq_none le_rfl]
      exact Nat.le_refl _
    · have hnone : (s.captures ++ [Capture.start])[i]? = none :=
        List.getElem?_eq_none (by simpa using Nat.succ_le_of_lt hgt)
      rw [hnone, List.getElem?_eq_none hgt.le]
  | freed | main | ignored | signal | ends => exact Nat.le_refl _
  | @thread j input t t' g' ls hw ht hstep =>
    have hle := rank_step hflag hstep
    by_cases hi : i = j
    · subst hi
      simp only [Service.rankOf, ServiceInput.ofThread, decide_true, if_true, ht,
        List.getElem?_set_self (List.getElem?_eq_some_iff.mp ht).1]
      exact hle
    · simp only [Service.rankOf, ServiceInput.ofThread, hi, decide_false, Bool.false_eq_true,
        if_false, List.getElem?_set_ne (Ne.symm hi)]
      exact Nat.le_refl _

/-- The flag is never set again. -/
theorem flag_step (hs : ServiceStep env setup s input s' out) (h : s.main.flag = false) :
    s'.main.flag = false := by
  cases hs with
  | created hown hm | main hown hm =>
    have hsteps := ForkJoin.step_cases hm
    rw [hown] at hsteps
    exact (ForkJoin.flag_of_own hsteps).trans h
  | freed _ _ _ hm =>
    rw [hm]
    exact h
  | signal => rfl
  | ignored | thread | ends => exact h

/-! ### A thread that waits -/

/-- Behind the signal, a thread that has waited for a packet still does, or has
been ended by one, or `pcap_loop` has failed. -/
def Waited (i : ℕ) (tr : List ServiceLabel) (s : Service) : Prop :=
  (∃ t, s.captures[i]? = some t ∧ (t.pc = .capturing ∨ ∃ p, t.pc = .handler p .test)) ∨
    .broken ∈ threadTrace i tr ∨ ∃ p, .dropped p ∈ threadTrace i tr

theorem Waited.step (h : Waited i tr s) (hflag : s.globals.fwKeepRunning = 0)
    (hs : ServiceStep env setup s input s' out) : Waited i (tr ++ out) s' := by
  rcases h with ⟨t, ht, hpc⟩ | hbroken | ⟨p, hdropped⟩
  · have hi : i < s.captures.length := (List.getElem?_eq_some_iff.mp ht).1
    cases hs with
    | created =>
      refine .inl ⟨t, ?_, hpc⟩
      rw [List.getElem?_append_left hi]
      exact ht
    | freed | main | ignored | signal | ends => exact .inl ⟨t, ht, hpc⟩
    | @thread j input u t' g' ls hw hu hstep =>
      by_cases hj : j = i
      · subst hj
        rw [ht] at hu
        obtain rfl := Option.some.inj hu
        have htrace := (traces_thread j s.main.freed ls).1
        have hset := List.getElem?_set_self (a := t') hi
        rcases hpc with hpc | ⟨p, hpc⟩
        · cases hstep with
          | packet bytes => exact .inl ⟨_, hset, .inr ⟨bytes, rfl⟩⟩
          | broken =>
            refine .inr (.inl ?_)
            rw [threadTrace_append, htrace]
            simp
          | cancelled hcan => simp [hpc, CapturePc.cancellable] at hcan
          | _ => simp_all
        · cases hstep with
          | access hpc' haccess =>
            obtain ⟨rfl, rfl⟩ := CapturePc.handler.inj (hpc.symm.trans hpc')
            cases haccess with
            | goesOn hrun => exact absurd hflag hrun
            | exits =>
              refine .inr (.inr ⟨p, ?_⟩)
              rw [threadTrace_append, htrace]
              simp [handlerLabels]
          | faulted hpc' hstep =>
            obtain ⟨rfl, rfl⟩ := CapturePc.handler.inj (hpc.symm.trans hpc')
            cases hstep
          | cancelled hcan => simp [hpc, CapturePc.cancellable] at hcan
          | _ => simp_all
      · refine .inl ⟨t, ?_, hpc⟩
        rw [List.getElem?_set_ne hj]
        exact ht
  · refine .inr (.inl ?_)
    rw [threadTrace_append]
    exact List.mem_append_left _ hbroken
  · refine .inr (.inr ⟨p, ?_⟩)
    rw [threadTrace_append]
    exact List.mem_append_left _ hdropped

/-! ### The main thread -/

theorem foldl_absorb (env : ServiceEnv) (ls : List ForkJoin.Label) (s : Service)
    (h : ∀ t ∈ s.captures, t.pc.isFault = false) :
    (ls.foldl (Service.absorb env) s).main = s.main ∧
      ∀ t ∈ (ls.foldl (Service.absorb env) s).captures, t.pc.isFault = false := by
  induction ls generalizing s with
  | nil => exact ⟨rfl, h⟩
  | cons l ls ih =>
    have hone : (s.absorb env l).main = s.main ∧
        ∀ t ∈ (s.absorb env l).captures, t.pc.isFault = false := by
      cases l with
      | created =>
        refine ⟨rfl, fun t ht => ?_⟩
        rcases List.mem_append.mp ht with ht | ht
        · exact h t ht
        · rw [List.mem_singleton.mp ht]
          rfl
      | _ => exact ⟨rfl, h⟩
    rw [List.foldl_cons]
    exact ⟨(ih _ hone.2).1.trans hone.1, (ih _ hone.2).2⟩

/-- A run of the main thread alone. -/
theorem run_main (env : ServiceEnv) {is : List ForkJoin.Input} {m : ForkJoin.State}
    {ls : List ForkJoin.Label}
    (hcaptures : ∀ t ∈ s.captures, t.pc.isFault = false) (hown : ∀ i ∈ is, i.own = true)
    (h : (joinPlan setup.args.length).run s.main is = some (m, ls)) :
    ∃ s', s.run env setup (is.map .main) = some (s', ls.map .main) ∧ s'.main = m := by
  induction is generalizing s ls with
  | nil =>
    obtain ⟨rfl, rfl⟩ := Prod.mk.inj (Option.some.inj h)
    exact ⟨s, rfl, rfl⟩
  | cons input is ih =>
    obtain ⟨hinput, his⟩ := List.forall_mem_cons.mp hown
    obtain ⟨m₁, out, outs, hstep, hrest, rfl⟩ := Machine.run_cons_iff.mp h
    obtain ⟨hmain, hcaptures'⟩ := foldl_absorb env out { s with main := m₁ } hcaptures
    have halive : s.dead = false := by
      refine Bool.or_eq_false_iff.mpr ⟨decide_eq_false ?_, List.any_eq_false.mpr fun t ht => ?_⟩
      · -- from a fault no step is left
        intro hpc
        have hsteps := ForkJoin.step_cases hstep
        rw [hinput] at hsteps
        cases hsteps <;> simp_all
      · rw [hcaptures t ht]
        decide
    have hfirst : s.step env setup (.main input) =
        some (out.foldl (Service.absorb env) { s with main := m₁ }, out.map .main) := by
      rw [Service.step, halive, if_neg (by decide)]
      simp only [hinput, if_true, Service.mainStep, hstep, Option.map_some]
    rw [show m₁ = (out.foldl (Service.absorb env) { s with main := m₁ }).main from hmain.symm]
      at hrest
    obtain ⟨s', hrun, hm⟩ := ih hcaptures' his hrest
    refine ⟨s', Machine.run_cons_iff.mpr ⟨_, _, _, hfirst, hrun, ?_⟩, hm⟩
    rw [List.map_append]

/-! ### Behind the signal -/

/-- The flag is down, and all threads read it so. -/
structure Cleared (setup : Setup) (tr : List ServiceLabel) (s : Service) : Prop where
  linked : Linked setup tr s
  flag : s.main.flag = false

theorem Cleared.fwKeepRunning (h : Cleared setup tr s) : s.globals.fwKeepRunning = 0 := by
  rw [h.linked.flag, h.flag]
  rfl

theorem Cleared.step (h : Cleared setup tr s) (hs : ServiceStep env setup s input s' out) :
    Cleared setup (tr ++ out) s' :=
  ⟨h.linked.step hs, flag_step hs h.flag⟩

/-- The rank of a thread bounds its steps. -/
theorem Cleared.countP_ofThread_le (h : Cleared setup tr s)
    (hrun : s.run env setup inputs = some (s', out)) (i : ℕ) :
    inputs.countP (ServiceInput.ofThread i) ≤ 12 := by
  have hle := Machine.countP_le_rank (P := Cleared setup) (fun _ s => s.rankOf i)
    (ServiceInput.ofThread i)
    (fun hp hs => ⟨hp.step (serviceStep_cases hs).2,
      rankOf_step hp.fwKeepRunning (serviceStep_cases hs).2 i⟩) h hrun
  have hmax := rankOf_le s i
  omega

theorem Cleared.waited (h : Cleared setup tr s) (hrun : s.run env setup inputs = some (s', out))
    (hwaited : Waited i [] s) : Waited i out s' := by
  have hafter := Machine.run_invariant
    (P := fun out s => Cleared setup (tr ++ out) s ∧ Waited i out s)
    (fun {out s input s' outs} hp hs => ?_) ⟨(List.append_nil tr).symm ▸ h, hwaited⟩ hrun
  · exact hafter.2
  · have hstep := hp.1.step (serviceStep_cases hs).2
    rw [List.append_assoc] at hstep
    exact ⟨hstep, hp.2.step hp.1.fwKeepRunning (serviceStep_cases hs).2⟩

/-- A thread that has exited no longer waits, so something has come. -/
theorem Waited.of_exited (h : Waited i tr s) (ht : s.captures[i]? = some t) (hpc : t.pc = .exited) :
    .broken ∈ threadTrace i tr ∨ ∃ p, .dropped p ∈ threadTrace i tr := by
  rcases h with ⟨u, hu, hpc'⟩ | hdone
  · rw [ht] at hu
    obtain rfl := Option.some.inj hu
    rw [hpc] at hpc'
    rcases hpc' with hpc' | ⟨p, hpc'⟩ <;> cases hpc'
  · exact hdone

/-! ### The end -/

/-- Each capture belongs to an argument. -/
theorem lt_of_capture {w : World}
    (h : (Service.begin env setup w).run env setup inputs = some (s, tr))
    (ht : s.captures[i]? = some t) : i < setup.args.length := by
  obtain ⟨is, hmain, -⟩ := projects h
  have hcreated := (ForkJoin.run_accounts hmain).1.created.1
  rw [← (Linked.run h).length] at hcreated
  exact Nat.lt_of_lt_of_le (List.getElem?_eq_some_iff.mp ht).1 hcreated

/-- The main thread alone comes to an end. -/
theorem exists_end {w : World}
    (h : (Service.begin env setup w).run env setup inputs = some (s, tr))
    (hflag : s.main.flag = false) (halive : s.dead = false) :
    ∃ inputs' s' tr', (∀ input ∈ inputs', input.ofMain = true) ∧
      s.run env setup inputs' = some (s', tr') ∧
      (s'.main.pc = .returned ∨
        s'.main.pc = .fault ∧ s'.main.workers.length < setup.args.length) := by
  obtain ⟨is, hmain, -⟩ := projects h
  obtain ⟨-, inputs', m, ls, hown, hrun, hfinal⟩ := ForkJoin.run_stops hmain hflag
  have hcaptures : ∀ t ∈ s.captures, t.pc.isFault = false := fun t ht =>
    Bool.eq_false_iff.mpr (List.any_eq_false.mp (Bool.or_eq_false_iff.mp halive).2 t ht)
  obtain ⟨s', hrun', hm⟩ := run_main env hcaptures hown hrun
  refine ⟨inputs'.map .main, s', _, ?_, hrun', ?_⟩
  · intro input hmem
    obtain ⟨i, -, rfl⟩ := List.mem_map.mp hmem
    rfl
  · rw [hm]
    refine hfinal.imp id fun hfault => ⟨hfault, ?_⟩
    have hall : (joinPlan setup.args.length).run _ (is ++ inputs') =
        some (m, mainTrace tr ++ ls) :=
      Machine.run_append_iff.mpr ⟨_, _, _, hmain, hrun, rfl⟩
    exact ((ForkJoin.run_accounts hall).2.fault hfault).2

/-- **SIGINT ends the service.**  Once the flag is cleared, in every
continuation the main thread makes at most 32 steps for each device and 3 more,
and each capture thread at most 12; `start` can come to its end without a step
of any thread, and then returns unless it joins a thread that was never
created; but it returns 0 only if each thread that was waiting for a packet has
got one, or a failure of `pcap_loop`. -/
theorem service_stops {rules : Rules}
    (hstart : startService env rules = some (.ok (.serves setup s₀)))
    (h : s₀.run env setup inputs = some (s, tr)) (hflag : s.main.flag = false) :
    (∀ inputs' s' tr', s.run env setup inputs' = some (s', tr') →
      inputs'.countP ServiceInput.ofMain ≤ setup.args.length * 32 + 3 ∧
        (∀ i, inputs'.countP (ServiceInput.ofThread i) ≤ 12) ∧
        (s'.result = some 0 → ∀ (i : ℕ) t, s.captures[i]? = some t → t.pc = .capturing →
          .broken ∈ threadTrace i tr' ∨ ∃ p, .dropped p ∈ threadTrace i tr')) ∧
    (s.dead = false → ∃ inputs' s' tr', (∀ input ∈ inputs', input.ofMain = true) ∧
      s.run env setup inputs' = some (s', tr') ∧
      (s'.main.pc = .returned ∨
        s'.main.pc = .fault ∧ s'.main.workers.length < setup.args.length)) := by
  obtain ⟨-, w, -, rfl⟩ := startService_cases hstart
  have hcleared : Cleared setup tr s := ⟨Linked.run h, hflag⟩
  refine ⟨fun inputs' s' tr' hrest => ⟨?_, hcleared.countP_ofThread_le hrest, ?_⟩,
    exists_end h hflag⟩
  · obtain ⟨is, hmain, -⟩ := projects h
    obtain ⟨is', hmain', hcount⟩ := projects hrest
    rw [← hcount]
    exact (ForkJoin.run_stops hmain hflag).1 is' _ _ hmain'
  · -- a thread that is joined at the end has exited
    intro hresult i t ht hpc
    have hall : (Service.begin env setup w).run env setup (inputs ++ inputs') =
        some (s', tr ++ tr') := Machine.run_append_iff.mpr ⟨_, _, _, h, hrest, rfl⟩
    obtain ⟨-, ⟨u, hu, hexited⟩, -⟩ := ended_of_result hall hresult (lt_of_capture h ht)
    have hwaited := hcleared.waited hrest (.inl ⟨t, ht, .inl hpc⟩)
    exact hwaited.of_exited hu hexited

/-- The signal comes while the only thread waits for a packet. -/
theorem stops_waiting :
    ∃ setup s₀ s tr, startService (hostFor "eth0") emptyRules = some (.ok (.serves setup s₀)) ∧
      s₀.run (hostFor "eth0") setup (oneCapture.take 9 ++ [.signal]) = some (s, tr) ∧
      (∀ inputs' s' tr', s.run (hostFor "eth0") setup inputs' = some (s', tr') →
        inputs'.countP ServiceInput.ofMain ≤ setup.args.length * 32 + 3 ∧
          (∀ i, inputs'.countP (ServiceInput.ofThread i) ≤ 12) ∧
          (s'.result = some 0 → ∀ (i : ℕ) t, s.captures[i]? = some t → t.pc = .capturing →
            .broken ∈ threadTrace i tr' ∨ ∃ p, .dropped p ∈ threadTrace i tr')) ∧
      ∃ inputs' s' tr', (∀ input ∈ inputs', input.ofMain = true) ∧
        s.run (hostFor "eth0") setup inputs' = some (s', tr') ∧
        (s'.main.pc = .returned ∨
          s'.main.pc = .fault ∧ s'.main.workers.length < setup.args.length) := by
  have hrun : observe (hostFor "eth0") emptyRules (oneCapture.take 9 ++ [.signal])
      (fun r => (r.2.1.main.flag, r.2.1.dead)) = some (false, false) := by decide +kernel
  obtain ⟨setup, s₀, s, tr, hstart, hrun, he⟩ := of_observe hrun
  obtain ⟨hflag, halive⟩ := Prod.mk.inj he
  obtain ⟨hbound, hends⟩ := service_stops hstart hrun hflag
  exact ⟨setup, s₀, s, tr, hstart, hrun, hbound, hends halive⟩

end SecuritySystem.Firewall
