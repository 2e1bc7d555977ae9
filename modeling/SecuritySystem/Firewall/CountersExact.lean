/-
SecuritySystem/Firewall/CountersExact.lean

When the two counters of the firewall service are right.

Right is what the handler itself would count: `untrusted_counter` is for the
packets that pass its test, whether or not these are the ones from the network
of the configuration.  The counters are right in the runs in which no two
threads are between their first and their last access to the shared variables
at once (`counts_exact`): that is what the mutex would have been for.  With one
device there is no other thread; with two, both can load `count` before one of
them stores it, and two packets are counted as one (`counts_exact_iff`).
-/
import SecuritySystem.Firewall.Counters

namespace SecuritySystem.Firewall

open CMem CString SharedCounter

variable {env : ServiceEnv} {setup : Setup} {s₀ s s' : Service} {input : ServiceInput}
variable {inputs : List ServiceInput} {tr out : List ServiceLabel} {i : ℕ}
variable {numPackets : ℤ} {g g' : Globals} {t t' : Capture} {ls : List CaptureLabel}

/-! ### One thread at a time -/

/-- The thread is between its first store to a shared variable and its last. -/
def Capture.busy (t : Capture) : Bool :=
  match t.pc with
  | .handler _ .clear | .handler _ .loadCount | .handler _ (.storeCount _)
  | .handler _ .storeSource | .handler _ .testSource | .handler _ .loadCounter
  | .handler _ (.storeCounter _) => true
  | _ => false

/-- No two threads are busy. -/
def Service.Alone (s : Service) : Prop :=
  ∀ (i j : ℕ) t u, s.captures[i]? = some t → s.captures[j]? = some u → t.busy = true →
    u.busy = true → i = j

/-- No thread is busy, and the behaviour is still defined. -/
structure Service.AtRest (s : Service) : Prop where
  alive : s.dead = false
  idle : ∀ t ∈ s.captures, t.busy = false

theorem busy_of_loaded {c : Counter} (hc : c = packetCounter ∨ c = sourceCounter) {v : BitVec 32}
    (h : t.loaded c = some v) : t.busy = true := by
  unfold Capture.loaded at h
  split at h
  · next p pc hpc =>
    rcases hc with rfl | rfl
    · cases pc with
      | storeCount => simp [Capture.busy, hpc]
      | _ => cases h
    · cases pc with
      | storeCounter => simp [Capture.busy, hpc]
      | _ => cases h
  · cases h

theorem toCount_of_idle (h : t.busy = false) : t.toCount = 0 := by
  unfold Capture.toCount
  split
  case h_4 => rfl
  all_goals
    next hpc =>
    simp [Capture.busy, hpc] at h

theorem toMatch_of_idle (q : List UInt8 → Bool) (h : t.busy = false) : t.toMatch q = 0 := by
  unfold Capture.toMatch
  split
  case h_8 => rfl
  all_goals
    next hpc =>
    simp [Capture.busy, hpc] at h

/-- The packet passes the test of the handler: its header is valid, and its
source gives `net_bits` under the mask. -/
def passesTest (g : Globals) (packet : List UInt8) : Bool :=
  20 ≤ sizeIp packet ∧ sourceOf packet &&& g.netmask = g.netBits

theorem nets_step (hs : ServiceStep env setup s input s' out) :
    passesTest s'.globals = passesTest s.globals := by
  cases hs with
  | @thread i input t t' g' ls hw ht hstep =>
    cases hstep with
    | access hpc haccess => cases haccess <;> rfl
    | _ => rfl
  | _ => rfl

/-- What a run in which no two threads are busy keeps. -/
structure Serial (q : List UInt8 → Bool) (tr : List ServiceLabel) (s : Service) : Prop where
  count : Exact ((captureTrace tr).count .counted) (s.cell packetCounter)
  counter : Exact ((captureTrace tr).count .matched) (s.cell sourceCounter)
  nets : passesTest s.globals = q
  headed : ∀ t ∈ s.captures, t.Headed
  /-- `ip_bits` is what the thread at the test has stored -/
  source : ∀ (i : ℕ) t p, s.captures[i]? = some t → t.pc = .handler p .testSource →
    s.globals.ipBits = sourceOf p
  matched : s.dead = false →
    (captureTrace tr).count .matched + s.total (Capture.toMatch q) = (packetsTaken tr).countP q

theorem Exact.step {c : Counter} (hc : c = packetCounter ∨ c = sourceCounter)
    (halone : s.Alone) (h : Exact ((captureTrace tr).count c.label) (s.cell c))
    (hs : ServiceStep env setup s input s' out) :
    Exact ((captureTrace (tr ++ out)).count c.label) (s'.cell c) := by
  rw [captureTrace_append, List.count_append]
  rcases cell_cases hc hs with ⟨hvalue, hloaded, hcount⟩ | ⟨i, hcell, hcount⟩ |
    ⟨i, v, hv, hcell, hcount⟩
  · rw [hcount]
    exact h.keep hvalue hloaded
  · rw [hcount, hcell]
    exact h.load i
  · rw [hcount, hcell]
    refine h.store hv fun j hj => ?_
    -- a thread that has loaded something is busy
    by_contra hsome
    obtain ⟨u, hu⟩ := Option.ne_none_iff_exists'.mp hsome
    obtain ⟨t, ht, htv⟩ := Option.bind_eq_some_iff.mp hv
    obtain ⟨t', ht', htu⟩ := Option.bind_eq_some_iff.mp hu
    exact hj (halone j i t' t ht' ht (busy_of_loaded hc htu) (busy_of_loaded hc htv))

theorem source_step (halone : s.Alone) (hs : ServiceStep env setup s input s' out)
    (h : ∀ (i : ℕ) t p, s.captures[i]? = some t → t.pc = .handler p .testSource →
      s.globals.ipBits = sourceOf p) :
    ∀ (i : ℕ) t p, s'.captures[i]? = some t → t.pc = .handler p .testSource →
      s'.globals.ipBits = sourceOf p := by
  intro j u p hu hpc
  cases hs with
  | created =>
    rcases Nat.lt_or_ge j s.captures.length with hlt | hge
    · rw [List.getElem?_append_left hlt] at hu
      exact h j u p hu hpc
    · rw [List.getElem?_append_right hge] at hu
      obtain rfl := List.mem_singleton.mp (List.mem_of_getElem? hu)
      cases hpc
  | freed | main | ignored | signal | ends => exact h j u p hu hpc
  | @thread i input t t' g' ls hw ht hstep =>
    by_cases hj : j = i
    · subst hj
      rw [List.getElem?_set_self (List.getElem?_eq_some_iff.mp ht).1] at hu
      obtain rfl := Option.some.inj hu
      cases hstep with
      | access _ haccess =>
        cases haccess with
        | storeSource =>
          cases hpc
          rfl
        | _ => cases hpc
      | seen =>
        rcases Capture.afterPacket_pc setup.numPackets t with hafter | hafter <;>
          simp [hafter] at hpc
      | _ => cases hpc
    · rw [List.getElem?_set_ne (Ne.symm hj)] at hu
      have hsame : g'.ipBits = s.globals.ipBits ∨ t.busy = true := by
        cases hstep with
        | access hpc haccess =>
          cases haccess with
          | clear | storeSource => exact .inr (by simp [Capture.busy, hpc])
          | _ => exact .inl rfl
        | _ => exact .inl rfl
      rcases hsame with hsame | hbusy
      · exact hsame.trans (h j u p hu hpc)
      · exact absurd (halone j i u t hu ht (by simp [Capture.busy, hpc]) hbusy) hj

theorem Serial.step {q : List UInt8 → Bool} (halone : s.Alone) (halive : s.dead = false)
    (h : Serial q tr s) (hs : ServiceStep env setup s input s' out) : Serial q (tr ++ out) s' where
  count := Exact.step (.inl rfl) halone h.count hs
  counter := Exact.step (.inr rfl) halone h.counter hs
  nets := (nets_step hs).trans h.nets
  headed := headed_captures hs h.headed
  source := source_step halone hs h.source
  matched halive' := by
    have hbefore := h.matched halive
    have htaken : (packetsTaken (tr ++ out)).countP q =
        (packetsTaken tr).countP q + (packetsOf (captureTrace out)).countP q := by
      rw [packetsTaken, captureTrace_append, packetsOf_append, List.countP_append]
      rfl
    rw [captureTrace_append, List.count_append]
    rcases total_cases (f := Capture.toMatch q) rfl hs with ⟨htotal, hnil⟩ |
      ⟨i, t, t', g', ht, hmem, hstep, hsum⟩
    · rw [hnil] at htaken ⊢
      simp only [packetsOf, List.filterMap_nil, List.countP_nil, List.count_nil] at htaken ⊢
      omega
    · -- at its test the thread finds its own source
      have htest : ∀ p, t.pc = .handler p .testSource →
          (q p = true ↔ s.globals.ipBits &&& s.globals.netmask = s.globals.netBits) := by
        intro p hpc
        rw [← h.nets, h.source i t p ht hpc, passesTest, decide_eq_true_iff,
          and_iff_right_iff_imp]
        exact fun _ => h.headed t (List.mem_of_getElem? ht) p (.inr hpc)
      have hheader : ∀ p, q p = true → 20 ≤ sizeIp p := by
        rw [← h.nets]
        exact fun p hp => (of_decide_eq_true hp).1
      have heq := (toMatch_step q hheader hstep fun p hpc hin => (htest p hpc).mpr hin).2
        (isFault_of_alive halive' hmem) fun p hpc hp => (htest p hpc).mp hp
      omega

/-- The counters say how many packets there were, and how many of them pass the
test of the handler. -/
def CountsRight (tr : List ServiceLabel) (s : Service) : Prop :=
  s.globals.count = .ofNat 32 (packetsTaken tr).length ∧
    s.globals.untrustedCounter = .ofNat 32 ((packetsTaken tr).countP (passesTest s.globals))

theorem countsRight_of_alone {w : World}
    (h : (Service.begin env setup w).run env setup inputs = some (s, tr))
    (halone : Machine.Throughout (Service.step env setup) Service.Alone (.begin env setup w) inputs)
    (hrest : s.AtRest) : CountsRight tr s := by
  have hbegin : Serial (passesTest (Service.begin env setup w).globals) []
      (Service.begin env setup w) := by
    refine ⟨exact_zero (fun _ => rfl) rfl, exact_zero (fun _ => rfl) rfl, rfl, ?_, ?_, ?_⟩
    · exact fun t ht => absurd ht List.not_mem_nil
    · intro i t p ht
      cases ht
    · exact fun _ => rfl
  have hserial : Serial _ ([] ++ tr) s := Machine.run_invariant_throughout (A := Service.Alone)
    (fun ha hp hs => hp.step ha (serviceStep_cases hs).1 (serviceStep_cases hs).2) hbegin halone h
  rw [List.nil_append] at hserial
  have hstores := (Stores.run h).exact hrest.alive
  have hmatched := hserial.matched hrest.alive
  have hzero : s.total Capture.toCount = 0 :=
    total_eq_zero fun t ht => toCount_of_idle (hrest.idle t ht)
  have hzero' : ∀ q, s.total (Capture.toMatch q) = 0 := fun q =>
    total_eq_zero fun t ht => toMatch_of_idle q (hrest.idle t ht)
  refine ⟨?_, ?_⟩
  · rw [show s.globals.count = (s.cell packetCounter).value from rfl, hserial.count.value]
    congr 1
    show (captureTrace tr).count .counted = _
    omega
  · rw [show s.globals.untrustedCounter = (s.cell sourceCounter).value from rfl,
      hserial.counter.value, hserial.nets]
    congr 1
    show (captureTrace tr).count .matched = _
    rw [hzero'] at hmatched
    exact hmatched

/-! ### One device -/

/-- With one device there is never a second thread. -/
theorem alone_of_one (hone : setup.args.length = 1) {w : World} :
    Machine.Throughout (Service.step env setup) Service.Alone (.begin env setup w) inputs := by
  intro js ks t out _ hrun
  obtain ⟨is, hmain, -⟩ := projects hrun
  have hcreated := (ForkJoin.run_accounts hmain).1.created.1
  have hlength : t.captures.length ≤ 1 := by
    rw [(Linked.run hrun).length, ← hone]
    exact hcreated
  intro i j u v hu hv _ _
  have hi := (List.getElem?_eq_some_iff.mp hu).1
  have hj := (List.getElem?_eq_some_iff.mp hv).1
  omega

/-- **Without an overlap the counters are right**: in a run in which no two
threads are busy at once, whenever no thread is, `count` is the number of the
packets that were taken up, and `untrusted_counter` the number of those that
pass the test of the handler. -/
theorem counts_exact {rules : Rules}
    (hstart : startService env rules = some (.ok (.serves setup s₀)))
    (h : s₀.run env setup inputs = some (s, tr))
    (halone : Machine.Throughout (Service.step env setup) Service.Alone s₀ inputs)
    (hrest : s.AtRest) : CountsRight tr s := by
  obtain ⟨-, w, -, rfl⟩ := startService_cases hstart
  exact countsRight_of_alone h halone hrest

/-- One device, and a packet from the untrusted network. -/
theorem counts_exact_oneCapture :
    ∃ setup s₀ s tr, startService (hostFor "eth0") emptyRules = some (.ok (.serves setup s₀)) ∧
      s₀.run (hostFor "eth0") setup oneCapture = some (s, tr) ∧
      s.globals.untrustedCounter = 1 ∧ CountsRight tr s := by
  have hrun : observe (hostFor "eth0") emptyRules oneCapture (fun r => (r.1.args.length,
      r.2.1.dead, r.2.1.captures.any Capture.busy, r.2.1.globals.untrustedCounter)) =
      some (1, false, false, 1) := by decide +kernel
  obtain ⟨setup, s₀, s, tr, hstart, hrun, he⟩ := of_observe hrun
  obtain ⟨hone, he⟩ := Prod.mk.inj he
  obtain ⟨halive, he⟩ := Prod.mk.inj he
  obtain ⟨hidle, hcount⟩ := Prod.mk.inj he
  obtain ⟨-, w, -, rfl⟩ := startService_cases hstart
  refine ⟨setup, _, s, tr, hstart, hrun, hcount,
    counts_exact hstart hrun (alone_of_one hone) ⟨halive, fun t ht => ?_⟩⟩
  exact Bool.eq_false_iff.mpr (List.any_eq_false.mp hidle t ht)

/-! ### Two devices -/

/-- A thread that runs alone. -/
def aloneStep (numPackets : ℤ) (s : Capture × Globals) (input : CaptureInput) :
    Option ((Capture × Globals) × List CaptureLabel) :=
  (s.1.step numPackets s.2 input).map fun r => ((r.1, r.2.1), r.2.2)

theorem not_isFault_of_step {input : CaptureInput} {r : Capture × Globals × List CaptureLabel}
    (h : t.step numPackets g input = some r) : t.pc.isFault = false := by
  obtain ⟨t', g', ls⟩ := r
  cases Capture.step_cases h with
  | cancelled hpc =>
    cases h : t.pc <;> first | rfl | simp [h, CapturePc.cancellable] at hpc
  | lookupnet _ hpc | compile _ hpc | setfilter _ hpc | packet _ hpc =>
    simp [hpc, CapturePc.isFault]
  | access hpc => simp [hpc, CapturePc.isFault]
  | enabled hpc | notEnabled hpc | notOpened hpc | opened hpc | noHandle hpc | datalink hpc
  | otherLink hpc | disabled hpc | notDisabled hpc | broken hpc | faulted hpc | seen hpc | exits hpc
  | freecode hpc | closed hpc => simp [hpc, CapturePc.isFault]

/-- **A run of one thread alone is a run of the service**, while no other
thread has faulted. -/
theorem run_thread (env : ServiceEnv) {is : List CaptureInput} (hmain : s.main.pc ≠ .fault)
    (hothers : ∀ (j : ℕ) u, j ≠ i → s.captures[j]? = some u → u.pc.isFault = false)
    (hw : s.main.workers[i]? = some .running) (ht : s.captures[i]? = some t)
    (hrun : Machine.run (aloneStep setup.numPackets) (t, s.globals) is = some ((t', g'), ls)) :
    s.run env setup (is.map (.thread i)) = some ({ s with
      captures := s.captures.set i t'
      globals := g' }, ls.map (.thread i s.main.freed)) := by
  induction is generalizing s t ls with
  | nil =>
    obtain ⟨he, rfl⟩ := Prod.mk.inj (Option.some.inj hrun)
    obtain ⟨rfl, rfl⟩ := Prod.mk.inj he
    have hset : s.captures.set i t = s.captures := by
      obtain ⟨hi, rfl⟩ := List.getElem?_eq_some_iff.mp ht
      exact List.set_getElem_self hi
    rw [hset]
    rfl
  | cons input is ih =>
    obtain ⟨⟨u, g₁⟩, out, outs, hstep, hrest, rfl⟩ := Machine.run_cons_iff.mp hrun
    obtain ⟨r, hr, he⟩ := Option.map_eq_some_iff.mp hstep
    obtain ⟨u', g₁', out'⟩ := r
    obtain ⟨hu, rfl⟩ := Prod.mk.inj he
    obtain ⟨rfl, rfl⟩ := Prod.mk.inj hu
    have hi : i < s.captures.length := (List.getElem?_eq_some_iff.mp ht).1
    have halive : s.dead = false := by
      refine Bool.or_eq_false_iff.mpr ⟨decide_eq_false hmain, List.any_eq_false.mpr fun v hv => ?_⟩
      obtain ⟨j, hj⟩ := List.getElem?_of_mem hv
      rw [Bool.not_eq_true]
      by_cases hji : j = i
      · subst hji
        rw [ht] at hj
        obtain rfl := Option.some.inj hj
        exact not_isFault_of_step hr
      · exact hothers j v hji hj
    have hfirst : s.step env setup (.thread i input) = some ({ s with
        captures := s.captures.set i u'
        globals := g₁' }, out'.map (.thread i s.main.freed)) := by
      rw [Service.step, halive, if_neg (by decide)]
      simp only [Service.threadStep, hw, ht, hr, Option.map_some]
    have hlater := ih (s := { s with
        captures := s.captures.set i u'
        globals := g₁' }) hmain (fun j v hj hv => ?_) hw (List.getElem?_set_self hi) hrest
    · refine Machine.run_cons_iff.mpr ⟨_, _, _, hfirst, ?_, List.map_append⟩
      simp only [List.set_set] at hlater
      exact hlater
    · rw [List.getElem?_set_ne (Ne.symm hj)] at hv
      exact hothers j v hj hv

/-- A packet without a valid header. -/
def headless : List UInt8 := zeros 15

/-- The calls of a set-up in which nothing fails. -/
def setUpCalls : List CaptureInput :=
  [.call 0, .call 0, .call 1, .call 1, .call 0, .call 0, .call 0]

/-- A packet, up to the load of `count`. -/
def upToLoad : List CaptureInput := [.packet headless, .go, .go, .go]

/-- A thread that has loaded 0. -/
def loadedZero : Capture := ⟨.handler headless (.storeCount 0), false, true, 0⟩

/-- It has stored 1, and returns. -/
def storedOne : Capture := ⟨.handler headless .returned, false, true, 0⟩

/-- Two threads load `count`, one after the other. -/
def bothLoad : List ServiceInput :=
  [.main (.created 0), .main (.created 0)] ++
    ((setUpCalls ++ upToLoad).map (.thread 0) ++ (setUpCalls ++ upToLoad).map (.thread 1))

/-- Then both store it. -/
def bothStore : List ServiceInput := [.go].map (.thread 0) ++ [.go].map (.thread 1)

/-- In `t`, reached with `tr`, two threads have loaded `count`, and nobody has
stored it; from `t` to `s` both do, and one of two packets is lost. -/
structure LosesPacket (t : Service) (tr : List ServiceLabel) (s : Service)
    (out : List ServiceLabel) : Prop where
  loaded : ∃ v, (t.cell packetCounter).loaded 0 = some v ∧ (t.cell packetCounter).loaded 1 = some v
  unstored : .counted ∉ captureTrace tr
  stored : .counted ∈ threadTrace 0 out ∧ .counted ∈ threadTrace 1 out
  rest : s.AtRest
  taken : (packetsTaken (tr ++ out)).length = 2
  count : s.globals.count = 1

/-- **A lost update**: with two devices, two packets can be counted as one. -/
theorem lostUpdate_run (env : ServiceEnv) (w : World) (htwo : 2 ≤ setup.args.length) :
    ∃ t tr s out, (Service.begin env setup w).run env setup bothLoad = some (t, tr) ∧
      t.run env setup bothStore = some (s, out) ∧ LosesPacket t tr s out := by
  let g := (Service.begin env setup w).globals
  let m : ForkJoin.State := ⟨.create 2, some 0, true, [.running, .running], false⟩
  let ls : List CaptureLabel := [.reads, .reads, .opened, .looped, .handled headless]
  have hcreated :
      (Service.begin env setup w).run env setup [.main (.created 0), .main (.created 0)] =
        some (⟨m, [.start, .start], g, w, none⟩, [.main (.created 0), .main (.created 1)]) := by
    have h0 : 0 < setup.args.length := by omega
    have h1 : 1 < setup.args.length := by omega
    simp [Service.run, Machine.run, Service.step, Service.mainStep, ForkJoin.Plan.step,
      ForkJoin.Plan.creates, ForkJoin.Plan.start, Service.begin, joinPlan, Service.dead,
      Service.absorb, ForkJoin.Input.own, CapturePc.isFault, Capture.start, h0, h1, m, g]
  -- a run of one of the two threads
  have hthread : ∀ (i : ℕ) (a b a' b' t t' : Capture) (g₁ g₂ : Globals) (is : List CaptureInput)
      (ls : List CaptureLabel), a.pc.isFault = false → b.pc.isFault = false →
      m.workers[i]? = some .running → [a, b][i]? = some t → [a, b].set i t' = [a', b'] →
      Machine.run (aloneStep setup.numPackets) (t, g₁) is = some ((t', g₂), ls) →
      Service.run env setup ⟨m, [a, b], g₁, w, none⟩ (is.map (.thread i)) =
        some (⟨m, [a', b'], g₂, w, none⟩, ls.map (.thread i false)) := by
    intro i a b a' b' t t' g₁ g₂ is ls ha hb hw ht hset hrun
    have h := run_thread env (s := ⟨m, [a, b], g₁, w, none⟩) (by simp [m])
      (fun j u _ hu => by
        rcases List.mem_cons.mp (List.mem_of_getElem? hu) with rfl | hu
        · exact ha
        · exact List.mem_singleton.mp hu ▸ hb) hw ht hrun
    rw [h]
    simp only [hset, m]
  -- each thread comes to its load of `count`, and then each stores
  have hload₀ := hthread 0 .start .start loadedZero .start .start loadedZero
    g { g with ipBits := 0 } (setUpCalls ++ upToLoad) ls rfl rfl rfl rfl rfl rfl
  have hload₁ := hthread 1 loadedZero .start loadedZero loadedZero .start loadedZero
    { g with ipBits := 0 } { g with ipBits := 0 } (setUpCalls ++ upToLoad) ls
    rfl rfl rfl rfl rfl rfl
  have hstore₀ := hthread 0 loadedZero loadedZero storedOne loadedZero loadedZero storedOne
    { g with ipBits := 0 } { g with ipBits := 0, count := 1 } [.go] [.counted]
    rfl rfl rfl rfl rfl rfl
  have hstore₁ := hthread 1 storedOne loadedZero storedOne storedOne loadedZero storedOne
    { g with ipBits := 0, count := 1 } { g with ipBits := 0, count := 1 } [.go] [.counted]
    rfl rfl rfl rfl rfl rfl
  have hloads := Machine.run_append_iff.mpr ⟨_, _, _, hcreated,
    Machine.run_append_iff.mpr ⟨_, _, _, hload₀, hload₁, rfl⟩, rfl⟩
  have hstores := Machine.run_append_iff.mpr ⟨_, _, _, hstore₀, hstore₁, rfl⟩
  refine ⟨_, _, _, _, hloads, hstores, ⟨⟨0, rfl, rfl⟩, by decide, ⟨by decide, by decide⟩,
    ⟨rfl, fun t ht => ?_⟩, rfl, rfl⟩⟩
  · rcases List.mem_cons.mp ht with rfl | ht
    · rfl
    · obtain rfl := List.mem_singleton.mp ht
      rfl

/-- Where `count` is right in every run there is one device. -/
theorem one_of_counts {w : World} (hargs : setup.args ≠ [])
    (h : ∀ inputs s tr, (Service.begin env setup w).run env setup inputs = some (s, tr) →
      s.AtRest → s.globals.count = .ofNat 32 (packetsTaken tr).length) :
    setup.args.length = 1 := by
  by_contra hne
  have hpos : setup.args.length ≠ 0 := mt List.length_eq_zero_iff.mp hargs
  have htwo : 2 ≤ setup.args.length := by omega
  obtain ⟨t, tr, s, out, hloads, hstores, hlost⟩ := lostUpdate_run env w htwo
  have hrun := Machine.run_append_iff.mpr ⟨_, _, _, hloads, hstores, rfl⟩
  have hright := h _ s (tr ++ out) hrun hlost.rest
  rw [hlost.taken, hlost.count] at hright
  exact absurd hright (by decide)

/-- **Exactly when the counters are right in every run**: with one device.  With
two or more, two threads can load `count` before either of them stores it, and
a packet is lost. -/
theorem counts_exact_iff {rules : Rules}
    (hstart : startService env rules = some (.ok (.serves setup s₀))) :
    ((∀ inputs s tr, s₀.run env setup inputs = some (s, tr) → s.AtRest → CountsRight tr s) ↔
        setup.args.length = 1) ∧
      (2 ≤ setup.args.length → ∃ inputs inputs' t tr s out, s₀.run env setup inputs = some (t, tr) ∧
        t.run env setup inputs' = some (s, out) ∧ LosesPacket t tr s out) := by
  obtain ⟨hargs, w, -, rfl⟩ := startService_cases hstart
  refine ⟨⟨fun hall => ?_, fun hone inputs s tr hrun hrest => ?_⟩, fun htwo => ?_⟩
  · exact one_of_counts hargs fun inputs s tr hrun hrest => (hall inputs s tr hrun hrest).1
  · exact countsRight_of_alone hrun (alone_of_one hone) hrest
  · exact ⟨bothLoad, bothStore, lostUpdate_run env w htwo⟩

/-- "eth0" and "lo". -/
theorem counts_exact_iff_all :
    ∃ setup s₀, startService (hostFor "all") emptyRules = some (.ok (.serves setup s₀)) ∧
      (¬ ∀ inputs s tr, s₀.run (hostFor "all") setup inputs = some (s, tr) → s.AtRest →
        CountsRight tr s) ∧
      ∃ inputs inputs' t tr s out, s₀.run (hostFor "all") setup inputs = some (t, tr) ∧
        t.run (hostFor "all") setup inputs' = some (s, out) ∧ LosesPacket t tr s out := by
  have hrun : observe (hostFor "all") emptyRules [] (fun r => r.1.args.length) = some 2 := by
    decide +kernel
  obtain ⟨setup, s₀, s, tr, hstart, -, htwo⟩ := of_observe hrun
  obtain ⟨hright, hlost⟩ := counts_exact_iff hstart
  refine ⟨setup, s₀, hstart, ?_, hlost (Nat.le_of_eq htwo.symm)⟩
  rw [hright, show setup.args.length = 2 from htwo]
  decide

end SecuritySystem.Firewall
