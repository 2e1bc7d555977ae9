/-
SecuritySystem/Firewall/Cycles.lean

Runs of the firewall service, one after the other.

`free_and_exit` flushes the two zones and OUTPUT and deletes the zones, but
nothing removes the jump to TRUSTED that `start` has put into INPUT.  So after
a run that installed its rules the chain TRUSTED is still referenced and
cannot be deleted, and each run with a plain interface adds a jump to INPUT that
stays (`lookup_input_cycles`): a network that was trusted once is trusted in all
later runs.  Hence no sequence of runs but the empty one is clean
(`runsClean_iff`).
-/
import SecuritySystem.Firewall.Start

namespace SecuritySystem.Firewall

open Iptables

variable {env : Env} {cfg : FwConfigAttrs} {w : World} {cmds : List FwCommand} {rc : ℤ}

/-! ### Clean runs -/

/-- Every command line is run, and `system` returns a wait status. -/
def Env.Working (env : Env) : Prop :=
  ∀ i, (env.response i).ran = true ∧ 0 ≤ (env.response i).status

/-- The rules that jump to one of the zones, with their chains. -/
def jumpsToZones (rules : Rules) : List (String × FwRule) :=
  jumps rules TRUSTED_ZONE_RULES ++ jumps rules UNTRUSTED_ZONE_RULES

/-- During a run: the jumps of its configuration, each once, and no others. -/
def During (rules : Rules) (cfg : FwConfigAttrs) : Prop :=
  List.Perm (jumpsToZones rules) [(OUTPUT, blockRule cfg), (INPUT, acceptRule cfg)]

/-- After a run: neither zone, and no rule of the service. -/
structure Clean (rules : Rules) : Prop where
  trusted : TRUSTED_ZONE_RULES ∉ rules
  untrusted : UNTRUSTED_ZONE_RULES ∉ rules
  jumps : jumpsToZones rules = []

/-- A sequence of runs, each with its configuration and the result of its
threads, is as it should be at every point. -/
def RunsClean (env : Env) : World → List (FwConfigAttrs × ℤ) → Prop
  | _, [] => True
  | w, (cfg, rc) :: runs =>
    (∀ w', start env cfg w = (.threads, w') → During w'.rules cfg) ∧
      Clean (cycle env cfg rc w).2.rules ∧ RunsClean env (cycle env cfg rc w).2 runs

/-! ### A run in a working environment -/

theorem start_of_working (hwork : env.Working) (cfg : FwConfigAttrs) (w : World) :
    start env cfg w = (.threads, w.setUp env cfg) :=
  start_of_not_fails fun i _ _ => Int.not_lt.mpr (hwork (w.log.length + i)).2

theorem cycle_of_working (hwork : env.Working) (cfg : FwConfigAttrs) (rc : ℤ) (w : World) :
    (cycle env cfg rc w).2 = (w.setUp env cfg).exit env := by
  unfold cycle
  rw [bind_run, start_of_working hwork]
  show (freeAndExit env rc (w.setUp env cfg)).2 = _
  rw [freeAndExit_run]

theorem call_rules_of_working (hwork : env.Working) (w : World) (cmds : List FwCommand) :
    (w.call env cmds).rules = (execAll env.valid cmds w.rules).1 := by
  rw [call_rules, if_pos (hwork w.log.length).1]

/-! ### INPUT -/

/-- `fw_ip_tables_flush` names the zones and OUTPUT. -/
theorem lookup_flush {c : String} (ht : TRUSTED_ZONE_RULES ≠ c) (hu : UNTRUSTED_ZONE_RULES ≠ c)
    (ho : OUTPUT ≠ c) : (w.flush env).rules.lookup c = w.rules.lookup c := by
  unfold World.flush
  rw [lookup_call_of_ne (chain_ne rfl hu), lookup_call_of_ne (chain_ne rfl ht)]
  apply lookup_call_of_ne
  intro cmd hmem
  simp only [List.mem_cons, List.not_mem_nil, or_false] at hmem
  rcases hmem with rfl | rfl | rfl
  · exact fun h => ht (Option.some.inj h)
  · exact fun h => hu (Option.some.inj h)
  · exact fun h => ho (Option.some.inj h)

theorem lookup_list (w : World) (c : String) :
    (w.call env [.list]).rules.lookup c = w.rules.lookup c := by
  apply lookup_call_of_ne
  intro cmd hmem
  obtain rfl := List.mem_singleton.mp hmem
  exact (Option.some_ne_none c).symm

theorem lookup_addRules_of_ne {chain zone c : String} {jump : FwRule} {v : Verdict}
    (hchain : chain ≠ c) (hzone : zone ≠ c) :
    (w.addRules env (.iptables [.append chain jump]) zone v).rules.lookup c =
      w.rules.lookup c := by
  unfold World.addRules
  rw [lookup_call_of_ne (chain_ne rfl hzone)]
  exact lookup_call_of_ne (chain_ne rfl hchain)

/-- Nothing that `free_and_exit` does changes INPUT. -/
theorem lookup_input_exit (env : Env) (w : World) :
    (w.exit env).rules.lookup INPUT = w.rules.lookup INPUT := by
  unfold World.exit
  rw [lookup_list, lookup_flush (by decide) (by decide) (by decide)]

/-- Before its rules `start` does not change INPUT either. -/
theorem lookup_input_blocked (env : Env) (cfg : FwConfigAttrs) (w : World) :
    (w.blocked env cfg).rules.lookup INPUT = w.rules.lookup INPUT := by
  unfold World.blocked World.newTrusted World.newUntrusted
  rw [lookup_addRules_of_ne (by decide) (by decide), lookup_call_of_ne (chain_ne rfl (by decide)),
    lookup_call_of_ne (chain_ne rfl (by decide)), lookup_flush (by decide) (by decide) (by decide)]

/-- When `start` appends to INPUT there is a chain TRUSTED: it has just been
made, or was there before. -/
theorem trusted_mem_blocked (hwork : env.Working) (cfg : FwConfigAttrs) (w : World) :
    TRUSTED_ZONE_RULES ∈ (w.blocked env cfg).rules := by
  have hnew : TRUSTED_ZONE_RULES ∈ (w.newTrusted env).rules := by
    unfold World.newTrusted
    rw [call_rules_of_working hwork]
    exact mem_execAll_newChain TRUSTED_ZONE_RULES
  exact (mem_iff_of_lookup_eq (lookup_addRules_of_ne (by decide) (by decide))).mpr hnew

/-- The part of INPUT that a run adds. -/
def kept (env : Env) (cfg : FwConfigAttrs) : List FwRule :=
  if env.valid (acceptRule cfg).criteria then [acceptRule cfg] else []

/-- **One run** with an interface that is one word leaves its jump to TRUSTED in INPUT. -/
theorem lookup_input_cycle (hwork : env.Working)
    (hword : env.OneWord cfg.fwAttrInterface) {l : List FwRule}
    (hl : w.rules.lookup INPUT = some l) :
    (cycle env cfg rc w).2.rules.lookup INPUT = some (l ++ kept env cfg) := by
  have htarget : (acceptRule cfg).TargetIn (w.blocked env cfg).rules :=
    trusted_mem_blocked hwork cfg w
  rw [cycle_of_working hwork, lookup_input_exit]
  rw [setUp_of_oneWord hword, lookup_list]
  unfold World.addRules
  rw [lookup_call_of_ne (chain_ne rfl (by decide))]
  show ((w.blocked env cfg).call env [_]).rules.lookup INPUT = _
  have hbefore := (lookup_input_blocked env cfg w).trans hl
  rw [call_rules_of_working hwork, lookup_execAll_append hbefore htarget]
  unfold kept
  split
  · rfl
  · rw [List.append_nil]

/-- Runs one after the other. -/
def cycles (env : Env) (w : World) (runs : List (FwConfigAttrs × ℤ)) : World :=
  runs.foldl (fun w run => (cycle env run.1 run.2 w).2) w

/-- **All runs**: INPUT keeps what it had and collects the jump of every run. -/
theorem lookup_input_cycles (hwork : env.Working) {runs : List (FwConfigAttrs × ℤ)}
    (hword : ∀ run ∈ runs, env.OneWord run.1.fwAttrInterface) {l : List FwRule}
    (hl : w.rules.lookup INPUT = some l) :
    (cycles env w runs).rules.lookup INPUT =
      some (l ++ runs.flatMap fun run => kept env run.1) := by
  induction runs generalizing w l with
  | nil => exact hl.trans (congrArg some (List.append_nil l).symm)
  | cons run runs ih =>
    obtain ⟨hrun, hruns⟩ := List.forall_mem_cons.mp hword
    show (cycles env (cycle env run.1 run.2 w).2 runs).rules.lookup INPUT = _
    rw [ih hruns (lookup_input_cycle hwork hrun hl), List.flatMap_cons, List.append_assoc]

/-! ### No sequence of runs is clean -/

/-- Rules that are right during a run are not gone after it. -/
theorem not_clean_of_during (hwork : env.Working)
    (hduring : During (w.setUp env cfg).rules cfg) : ¬ Clean (cycle env cfg rc w).2.rules := by
  intro hclean
  have hmem : (INPUT, acceptRule cfg) ∈ jumpsToZones (w.setUp env cfg).rules := by
    apply hduring.mem_iff.mpr
    exact List.mem_cons_of_mem _ List.mem_cons_self
  obtain ⟨l, hl, hr⟩ : ∃ l, (w.setUp env cfg).rules.lookup INPUT = some l ∧ acceptRule cfg ∈ l := by
    rcases List.mem_append.mp hmem with h | h
    · obtain ⟨l, hl, hr, -⟩ := mem_jumps.mp h
      exact ⟨l, hl, hr⟩
    · obtain ⟨l, hl, hr, -⟩ := mem_jumps.mp h
      exact ⟨l, hl, hr⟩
  have hafter : (INPUT, acceptRule cfg) ∈ jumpsToZones (cycle env cfg rc w).2.rules := by
    apply List.mem_append_left
    refine mem_jumps.mpr ⟨l, ?_, hr, rfl⟩
    rw [cycle_of_working hwork, lookup_input_exit]
    exact hl
  rw [hclean.jumps] at hafter
  cases hafter

/-- **Only the empty sequence of runs is clean**, from whatever ruleset. -/
theorem runsClean_iff (env : Env) (hwork : env.Working) (rules : Rules)
    (runs : List (FwConfigAttrs × ℤ)) : RunsClean env ⟨rules, []⟩ runs ↔ runs = [] := by
  constructor
  · intro h
    cases runs with
    | nil => rfl
    | cons run runs =>
      exfalso
      obtain ⟨hduring, hclean, -⟩ := h
      exact not_clean_of_during hwork (hduring _ (start_of_working hwork run.1 _)) hclean
  · rintro rfl
    exact trivial

theorem envOf_working {status : List ℤ} (h : ∀ s ∈ status, 0 ≤ s) : (envOf status).Working := by
  intro i
  refine ⟨rfl, ?_⟩
  show 0 ≤ status.getD i 0
  rw [List.getD_eq_getElem?_getD]
  rcases hi : status[i]? with - | s
  · exact Int.le_refl 0
  · exact h s (List.mem_of_getElem? hi)

theorem runsClean_iff_fresh :
    ¬ RunsClean (envOf [256, 256, 256]) ⟨emptyRules, []⟩ [(cfgOf 24 24, 0)] := by
  rw [runsClean_iff (envOf [256, 256, 256]) (envOf_working (by decide))]
  exact List.cons_ne_nil _ _

/-- One run on a fresh host, where `-F` and `--delete-chain` are refused before
the first rule and `--delete-chain TRUSTED` after the last: the jump and the
chain stay. -/
theorem not_runsClean_fresh :
    ¬ ∀ env : Env, env.Working → ∀ rules : Rules, TRUSTED_ZONE_RULES ∉ rules →
      UNTRUSTED_ZONE_RULES ∉ rules → rules.lookup OUTPUT = some [] →
        ∀ runs, RunsClean env ⟨rules, []⟩ runs := by
  intro h
  have hclean := h (envOf [256, 256, 256, 0, 0, 0, 0, 0, 0, 0, 0, 256])
    (envOf_working (by decide)) emptyRules (by decide) (by decide) rfl [(cfgOf 24 24, 0)]
  exact hclean.2.1.trusted (by decide)

end SecuritySystem.Firewall
