/-
SecuritySystem/Firewall/CountersNetwork.lean

When `untrusted_counter` counts the packets from the configured network.

Two things go wrong with it, each on its own: the test of the handler is
membership for five networks only, and with two devices an update can be lost.
Over all runs of the service nothing else does (`countsSources_iff`): for each
address there is a run whose only packet comes from it, so a test that is wrong
anywhere shows in a counter.
-/
import SecuritySystem.Firewall.CountersExact

namespace SecuritySystem.Firewall

open CMem CString

variable {env : ServiceEnv} {setup : Setup} {s₀ s s' : Service}
variable {inputs : List ServiceInput} {tr : List ServiceLabel}

/-! ### The network of a run -/

/-- The packet has a valid header, and its source is in the network. -/
def sentFrom (net : Network) (packet : List UInt8) : Bool :=
  20 ≤ sizeIp packet ∧ InNetwork net (sourceOf packet)

/-- The counters say how many packets there were, and how many of them came
from the network. -/
def CountsSources (net : Network) (tr : List ServiceLabel) (s : Service) : Prop :=
  s.globals.count = .ofNat 32 (packetsTaken tr).length ∧
    s.globals.untrustedCounter = .ofNat 32 ((packetsTaken tr).countP (sentFrom net))

/-- What the handler tests. -/
def passes (wide : ℕ → BitVec 32) (net : Network) (src : BitVec 32) : Prop :=
  src &&& (net.ipPrefix &&& (oneShl wide net.netmask - 1)) = net.ipPrefix

/-- It stays the same in the whole run. -/
theorem passesTest_run {w : World}
    (h : (Service.begin env setup w).run env setup inputs = some (s, tr)) (packet : List UInt8) :
    passesTest s.globals packet = true ↔
      20 ≤ sizeIp packet ∧ passes env.wide setup.cfg.fwUntrustedNetwork (sourceOf packet) := by
  have hsame : passesTest s.globals = passesTest (Service.begin env setup w).globals :=
    Machine.run_keeps (P := fun t => passesTest t.globals =
        passesTest (Service.begin env setup w).globals)
      (fun ht hs => (nets_step (serviceStep_cases hs).2).trans ht) rfl h
  rw [hsame]
  exact decide_eq_true_iff

/-! ### A run with one packet -/

section OnePacket

variable {n : ℤ} {g g' : Globals} {packet : List UInt8} {pc next : HandlerPc} (src : BitVec 32)

/-- A thread in the handler. -/
def handling (packet : List UInt8) (pc : HandlerPc) : Capture :=
  ⟨.handler packet pc, false, true, 0⟩

theorem aloneStep_handling (hreturned : pc ≠ .returned) (hexit : pc ≠ .threadExit)
    (h : handlerStep packet g pc = .ok (g', next)) :
    aloneStep n (handling packet pc, g) .go =
      some ((handling packet next, g'), handlerLabels packet pc next) := by
  have hgo : (handling packet pc).step n g .go =
      some (handling packet next, g', handlerLabels packet pc next) := by
    cases pc with
    | returned => exact absurd rfl hreturned
    | threadExit => exact absurd rfl hexit
    | _ => simp only [Capture.step, Capture.go, handling, h]
  rw [aloneStep, hgo]
  rfl

theorem storeCount_packetFrom (loaded : BitVec 32) :
    handlerStep (packetFrom src) g (.storeCount loaded) =
      .ok ({ g with count := loaded + 1 }, .storeSource) := by
  have hvhl : load (packetFrom src) SIZE_ETHERNET = .ok 0x45 := rfl
  have hsize : ¬ ipHl 0x45 * 4 < 20 := by decide
  simp only [handlerStep, hvhl, ok_bind, if_neg hsize]
  rfl

/-- A thread sets its capture up, and takes a packet up to its test. -/
theorem upToTest_run (hrun : g.fwKeepRunning = 1) :
    ∃ g' ls, Machine.run (aloneStep n) (.start, g)
        ((setUpCalls ++ [.packet (packetFrom src), .go, .go, .go]) ++ [.go, .go]) =
          some ((handling (packetFrom src) .testSource, g'), ls) ∧
      packetsOf ls = [packetFrom src] := by
  obtain ⟨keep, bits, mask, ip, counter, count⟩ := g
  obtain rfl : keep = 1 := hrun
  have hload : Machine.run (aloneStep n) (.start, ⟨1, bits, mask, ip, counter, count⟩)
      (setUpCalls ++ [.packet (packetFrom src), .go, .go, .go]) =
        some ((handling (packetFrom src) (.storeCount count), ⟨1, bits, mask, 0, counter, count⟩),
          [.reads, .reads, .opened, .looped, .handled (packetFrom src)]) := rfl
  have hcount := aloneStep_handling (n := n) HandlerPc.noConfusion HandlerPc.noConfusion
    (storeCount_packetFrom (g := ⟨1, bits, mask, 0, counter, count⟩) src count)
  have hsource : Machine.run (aloneStep n) (handling (packetFrom src) .storeSource,
      ⟨1, bits, mask, 0, counter, count + 1⟩) [.go] =
        some ((handling (packetFrom src) .testSource,
          ⟨1, bits, mask, sourceOf (packetFrom src), counter, count + 1⟩), []) := rfl
  have hbehind := Machine.run_cons_iff.mpr ⟨_, _, _, hcount, hsource, rfl⟩
  exact ⟨_, _, Machine.run_append_iff.mpr ⟨_, _, _, hload, hbehind, rfl⟩, rfl⟩

/-- From the test on it stops nowhere in front of the `switch`. -/
theorem behindTest_run (packet : List UInt8) (g : Globals) :
    ∃ is g' ls, Machine.run (aloneStep n) (handling packet .testSource, g) is =
        some ((handling packet .rest, g'), ls) ∧ packetsOf ls = [] := by
  by_cases hin : g.ipBits &&& g.netmask = g.netBits
  · have htest : handlerStep packet g .testSource = .ok (g, .loadCounter) := by
      rw [handlerStep, if_pos hin]
      rfl
    have hstep := aloneStep_handling (n := n) HandlerPc.noConfusion HandlerPc.noConfusion htest
    have hcounted : Machine.run (aloneStep n) (handling packet .loadCounter, g) [.go, .go] =
        some ((handling packet .rest, { g with untrustedCounter := g.untrustedCounter + 1 }),
          [.matched]) := rfl
    exact ⟨_, _, _, Machine.run_cons_iff.mpr ⟨_, _, _, hstep, hcounted, rfl⟩, rfl⟩
  · have htest : handlerStep packet g .testSource = .ok (g, .rest) := by
      rw [handlerStep, if_neg hin]
      rfl
    have hstep := aloneStep_handling (n := n) HandlerPc.noConfusion HandlerPc.noConfusion htest
    exact ⟨_, _, _, Machine.run_single hstep, rfl⟩

end OnePacket

/-- **One packet**: with one device, any source can be that of the only packet. -/
theorem exists_onePacket (hone : setup.args.length = 1) (w : World) (src : BitVec 32) :
    ∃ inputs s tr, (Service.begin env setup w).run env setup inputs = some (s, tr) ∧ s.AtRest ∧
      packetsTaken tr = [packetFrom src] := by
  let g := (Service.begin env setup w).globals
  let m : ForkJoin.State := ⟨.create 1, some 0, true, [.running], false⟩
  have hcreated : (Service.begin env setup w).run env setup [.main (.created 0)] =
      some (⟨m, [.start], g, w, none⟩, [.main (.created 0)]) := by
    have h0 : 0 < setup.args.length := by omega
    simp [Service.run, Machine.run, Service.step, Service.mainStep, ForkJoin.Plan.step,
      ForkJoin.Plan.creates, ForkJoin.Plan.start, Service.begin, joinPlan, Service.dead,
      Service.absorb, ForkJoin.Input.own, h0, m, g]
  obtain ⟨g₁, ls, hupTo, htaken⟩ := upToTest_run (n := setup.numPackets) (g := g) src rfl
  obtain ⟨is, g₂, ls', hbehind, hnone⟩ := behindTest_run (n := setup.numPackets) (packetFrom src) g₁
  have hthread := run_thread env (i := 0) (s := ⟨m, [.start], g, w, none⟩) (by simp [m])
    (fun j u hj hu => by
      have hlt := (List.getElem?_eq_some_iff.mp hu).1
      exact absurd (Nat.lt_one_iff.mp hlt) hj) rfl rfl
    (Machine.run_append_iff.mpr ⟨_, _, _, hupTo, hbehind, rfl⟩)
  refine ⟨_, _, _, Machine.run_append_iff.mpr ⟨_, _, _, hcreated, hthread, rfl⟩, ⟨rfl, ?_⟩, ?_⟩
  · intro t ht
    obtain rfl := List.mem_singleton.mp ht
    rfl
  · rw [packetsTaken, captureTrace_append, (traces_thread 0 false (ls ++ ls')).2.2,
      packetsOf_append, packetsOf_append, htaken, hnone]
    rfl

/-! ### When the sources are counted right -/

/-- The test is membership. -/
def TestsNetwork (wide : ℕ → BitVec 32) (net : Network) : Prop :=
  ∀ src, passes wide net src ↔ InNetwork net src

theorem countsSources_iff_countsRight {w : World}
    (h : (Service.begin env setup w).run env setup inputs = some (s, tr))
    (htests : TestsNetwork env.wide setup.cfg.fwUntrustedNetwork) :
    CountsSources setup.cfg.fwUntrustedNetwork tr s ↔ CountsRight tr s := by
  have hsame : sentFrom setup.cfg.fwUntrustedNetwork = passesTest s.globals := by
    funext packet
    rw [Bool.eq_iff_iff, passesTest_run h, htests]
    exact decide_eq_true_iff
  rw [CountsSources, hsame]
  rfl

/-- A source that the test gets wrong shows in the counter. -/
theorem passes_iff_of_right {w : World} (src : BitVec 32)
    (h : (Service.begin env setup w).run env setup inputs = some (s, tr))
    (htaken : packetsTaken tr = [packetFrom src]) (hcounts : CountsRight tr s)
    (hright : CountsSources setup.cfg.fwUntrustedNetwork tr s) :
    passes env.wide setup.cfg.fwUntrustedNetwork src ↔
      InNetwork setup.cfg.fwUntrustedNetwork src := by
  have hip : 20 ≤ sizeIp (packetFrom src) := by
    show 20 ≤ ipHl 0x45 * 4
    decide
  have hpasses := passesTest_run h (packetFrom src)
  have hsent : sentFrom setup.cfg.fwUntrustedNetwork (packetFrom src) = true ↔ 20 ≤ _ ∧ _ :=
    decide_eq_true_iff
  rw [sourceOf_packetFrom, and_iff_right hip] at hpasses hsent
  rw [← hpasses, ← hsent]
  have heq := hcounts.2.symm.trans hright.2
  rw [htaken, List.countP_singleton, List.countP_singleton] at heq
  cases hf : passesTest s.globals (packetFrom src) <;>
    cases hn : sentFrom setup.cfg.fwUntrustedNetwork (packetFrom src) <;> simp [hf, hn] at heq ⊢

/-- **Exactly when both counters are right in every run**: with one device, and
one of the networks for which the test of the handler is membership. -/
theorem countsSources_iff {rules : Rules}
    (hstart : startService env rules = some (.ok (.serves setup s₀)))
    (hmask : setup.cfg.fwUntrustedNetwork.netmask.toNat ≤ 32) :
    (∀ inputs s tr, s₀.run env setup inputs = some (s, tr) → s.AtRest →
        CountsSources setup.cfg.fwUntrustedNetwork tr s) ↔
      setup.args.length = 1 ∧
        ((setup.cfg.fwUntrustedNetwork.ipPrefix, setup.cfg.fwUntrustedNetwork.netmask) ∈
            [(0, 0), (0xff, 8), (0xffff, 16), (0xffffff, 24)] ∨
          (setup.cfg.fwUntrustedNetwork.ipPrefix, setup.cfg.fwUntrustedNetwork.netmask) =
            (0xffffffff, 32) ∧ env.wide 32 = 0) := by
  obtain ⟨hargs, w, -, rfl⟩ := startService_cases hstart
  have htests : TestsNetwork env.wide setup.cfg.fwUntrustedNetwork ↔ _ :=
    (test_iff_member hmask).trans (network_iff env.wide hmask)
  rw [← htests]
  constructor
  · intro hall
    have hone := one_of_counts hargs fun inputs s tr hrun hrest => (hall inputs s tr hrun hrest).1
    refine ⟨hone, fun src => ?_⟩
    obtain ⟨inputs, s, tr, hrun, hrest, htaken⟩ := exists_onePacket hone w src
    exact passes_iff_of_right src hrun htaken (countsRight_of_alone hrun (alone_of_one hone) hrest)
      (hall inputs s tr hrun hrest)
  · rintro ⟨hone, htests⟩ inputs s tr hrun hrest
    exact (countsSources_iff_countsRight hrun htests).mpr
      (countsRight_of_alone hrun (alone_of_one hone) hrest)

/-- The host of the other runs, with 255.0.0.0/8 for the untrusted network. -/
def hostClassA : ServiceEnv :=
  { hostFor "eth0" with
    buffer := some ((lit ("interface: eth0\nuntrusted_net: 255.0.0.0/8\n" ++
      "trusted_net: 10.0.0.0/8\npacket_num: 1\n\n")).bytes ++ 0 :: []) }

theorem countsSources_iff_classA :
    ∃ setup s₀, startService hostClassA emptyRules = some (.ok (.serves setup s₀)) ∧
      ∀ inputs s tr, s₀.run hostClassA setup inputs = some (s, tr) → s.AtRest →
        CountsSources ⟨0xff, 8⟩ tr s := by
  have hrun : observe hostClassA emptyRules [] (fun r => (r.1.args.length,
      r.1.cfg.fwUntrustedNetwork.ipPrefix, r.1.cfg.fwUntrustedNetwork.netmask)) =
      some (1, 0xff, 8) := by decide +kernel
  obtain ⟨setup, s₀, s, tr, hstart, -, he⟩ := of_observe hrun
  obtain ⟨hone, he⟩ := Prod.mk.inj he
  obtain ⟨haddr, hmask⟩ := Prod.mk.inj he
  have hnet : setup.cfg.fwUntrustedNetwork = ⟨0xff, 8⟩ := by
    rw [← haddr, ← hmask]
  have hiff := countsSources_iff hstart (by rw [hnet]; decide)
  rw [hnet] at hiff
  exact ⟨setup, s₀, hstart, hiff.mpr ⟨hone, .inl (by decide)⟩⟩

end SecuritySystem.Firewall
