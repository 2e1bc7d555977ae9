/-
SecuritySystem/Firewall/Frame.lean

What the runs of the firewall service do to the rules of others.

With an interface that is one word to the shell the service only appends to
INPUT, so whatever stood there stands there after any number of runs.  (Any
other interface makes a command line of its own, which may do anything to the
rules.)  OUTPUT is different: `fw_ip_tables_flush` ends in `-F OUTPUT`, behind a
`&&` that lets it through as soon as both zones exist, which is the case at the
end of every run whose `start` went well.  Such a flush empties OUTPUT, the
rules of others included.

`Grows c P w w'` says what happens to the chain `c` from `w` to `w'`: the calls
in between are on the log, and the chain has only got rules with `P` at its
end, counted from the last call that emptied it.  The relation composes, so the
steps of `start` and `free_and_exit` are taken one by one.
-/
import SecuritySystem.Firewall.Cycles

namespace SecuritySystem.Firewall

open Iptables

variable {env : Env} {cfg : FwConfigAttrs} {w w' w'' : World} {cmds : List FwCommand}
variable {c : String} {P : FwRule → Prop}

/-! ### The flush -/

/-- The first call of `fw_ip_tables_flush`. -/
def flushCommands : List FwCommand :=
  [.flush TRUSTED_ZONE_RULES, .flush UNTRUSTED_ZONE_RULES, .flush OUTPUT]

/-- The call has emptied the chain. -/
def Call.Clears (call : Call) (c : String) : Prop :=
  call.accepted = true ∧ Command.flush c ∈ call.commands

/-- The flush gets through when the shell is run and all three chains exist. -/
theorem accepts_flushCommands_iff (env : Env) (w : World) :
    w.accepts env flushCommands = true ↔
      (env.response w.log.length).ran = true ∧ TRUSTED_ZONE_RULES ∈ w.rules ∧
        UNTRUSTED_ZONE_RULES ∈ w.rules ∧ OUTPUT ∈ w.rules := by
  have hflushes : (execAll env.valid flushCommands w.rules).2 = true ↔
      ∀ c ∈ [TRUSTED_ZONE_RULES, UNTRUSTED_ZONE_RULES, OUTPUT], c ∈ w.rules := by
    have hmap : flushCommands =
        [TRUSTED_ZONE_RULES, UNTRUSTED_ZONE_RULES, OUTPUT].map Command.flush := rfl
    rw [hmap]
    exact execAll_flushes_iff
  simp only [List.forall_mem_cons, List.not_mem_nil, false_imp_iff, implies_true,
    and_true] at hflushes
  unfold World.accepts
  by_cases hran : (env.response w.log.length).ran = true
  · rw [if_pos hran, and_iff_right hran]
    exact hflushes
  · rw [if_neg hran]
    exact iff_of_false Bool.false_ne_true fun h => hran h.1

/-- It then empties OUTPUT, and else does nothing to it. -/
theorem lookup_output_call_flush (env : Env) (w : World) :
    (w.call env flushCommands).rules.lookup OUTPUT =
      if w.accepts env flushCommands then some [] else w.rules.lookup OUTPUT := by
  have hne : ∀ cmd ∈ ([.flush TRUSTED_ZONE_RULES, .flush UNTRUSTED_ZONE_RULES] : List FwCommand),
      cmd.chain ≠ some OUTPUT := by
    intro cmd hmem
    rcases List.mem_pair.mp hmem with rfl | rfl
    · decide
    · decide
  rw [call_rules]
  unfold World.accepts
  by_cases hran : (env.response w.log.length).ran = true
  · rw [if_pos hran, if_pos hran]
    exact lookup_execAll_concat_flush hne
  · rw [if_neg hran, if_neg hran]
    rfl

/-! ### Growth of a chain -/

/-- From `w` to `w'` the chain `c` got rules with `P` only, all behind what
was there, unless a call emptied it; and only OUTPUT is ever flushed. -/
def Grows (c : String) (P : FwRule → Prop) (w w' : World) : Prop :=
  ∃ calls, w'.log = calls ++ w.log ∧
    (∀ call ∈ calls, Command.flush c ∈ call.commands → c = OUTPUT) ∧
    ∀ l, w.rules.lookup c = some l → ∃ added, (∀ r ∈ added, P r) ∧
      ((∀ call ∈ calls, ¬ call.Clears c) ∧ w'.rules.lookup c = some (l ++ added) ∨
        (∃ call ∈ calls, call.Clears c) ∧ w'.rules.lookup c = some added)

theorem Grows.refl (w : World) : Grows c P w w := by
  refine ⟨[], rfl, fun call hmem => absurd hmem List.not_mem_nil, fun l hl => ?_⟩
  refine ⟨[], fun r hr => absurd hr List.not_mem_nil, .inl ⟨?_, ?_⟩⟩
  · exact fun call hmem => absurd hmem List.not_mem_nil
  · rw [List.append_nil]
    exact hl

theorem Grows.trans (h : Grows c P w w') (h' : Grows c P w' w'') : Grows c P w w'' := by
  obtain ⟨calls, hlog, hflush, hrules⟩ := h
  obtain ⟨calls', hlog', hflush', hrules'⟩ := h'
  refine ⟨calls' ++ calls, by rw [hlog', hlog, List.append_assoc], ?_, ?_⟩
  · intro call hmem
    exact (List.mem_append.mp hmem).elim (hflush' call) (hflush call)
  intro l hl
  obtain ⟨added, hadded, hcases⟩ := hrules l hl
  -- what the chain holds in between
  obtain ⟨m, hm⟩ : ∃ m, w'.rules.lookup c = some m := by
    rcases hcases with ⟨-, h⟩ | ⟨-, h⟩
    · exact ⟨_, h⟩
    · exact ⟨_, h⟩
  obtain ⟨added', hadded', hcases'⟩ := hrules' m hm
  rcases hcases' with ⟨hkeep', hl'⟩ | ⟨⟨call, hmem, hclears⟩, hl'⟩
  · refine ⟨added ++ added', fun r hr => (List.mem_append.mp hr).elim (hadded r) (hadded' r), ?_⟩
    rcases hcases with ⟨hkeep, h⟩ | ⟨⟨call, hmem, hclears⟩, h⟩
    · obtain rfl := Option.some.inj (hm.symm.trans h)
      refine .inl ⟨?_, by rw [hl', List.append_assoc]⟩
      exact fun call hmem => (List.mem_append.mp hmem).elim (hkeep' call) (hkeep call)
    · obtain rfl := Option.some.inj (hm.symm.trans h)
      exact .inr ⟨⟨call, List.mem_append_right calls' hmem, hclears⟩, hl'⟩
  · exact ⟨added', hadded', .inr ⟨⟨call, List.mem_append_left calls hmem, hclears⟩, hl'⟩⟩

/-! ### The calls -/

/-- One call; the cases of what it does to the chain. -/
theorem grows_call (hflush : Command.flush c ∈ cmds → c = OUTPUT)
    (h : ∀ l, w.rules.lookup c = some l → ∃ added, (∀ r ∈ added, P r) ∧
      (Command.flush c ∉ cmds ∧ (w.call env cmds).rules.lookup c = some (l ++ added) ∨
        Command.flush c ∈ cmds ∧ (w.call env cmds).rules.lookup c =
          some (if w.accepts env cmds then added else l ++ added))) :
    Grows c P w (w.call env cmds) := by
  refine ⟨[_], call_log env w cmds, ?_, fun l hl => ?_⟩
  · intro call hmem
    obtain rfl := List.mem_singleton.mp hmem
    exact hflush
  obtain ⟨added, hadded, ⟨hnot, hl'⟩ | ⟨hmem, hl'⟩⟩ := h l hl
  · refine ⟨added, hadded, .inl ⟨?_, hl'⟩⟩
    rintro call hcall ⟨-, hclears⟩
    obtain rfl := List.mem_singleton.mp hcall
    exact hnot hclears
  · refine ⟨added, hadded, ?_⟩
    by_cases hacc : w.accepts env cmds = true
    · rw [if_pos hacc] at hl'
      exact .inr ⟨⟨_, List.mem_singleton_self _, hacc, hmem⟩, hl'⟩
    · rw [if_neg hacc] at hl'
      refine .inl ⟨?_, hl'⟩
      rintro call hcall ⟨hcleared, -⟩
      obtain rfl := List.mem_singleton.mp hcall
      exact hacc hcleared

theorem grows_call_of_ne (hne : ∀ cmd ∈ cmds, cmd.chain ≠ some c) :
    Grows c P w (w.call env cmds) := by
  have hnot : Command.flush c ∉ cmds := fun hmem => hne _ hmem rfl
  refine grows_call (fun hmem => absurd hmem hnot) fun l hl => ?_
  refine ⟨[], fun r hr => absurd hr List.not_mem_nil, .inl ⟨hnot, ?_⟩⟩
  rw [lookup_call_of_ne hne, hl, List.append_nil]

theorem grows_append {chain : String} {r : FwRule} (hP : chain = c → P r) :
    Grows c P w (w.call env [.append chain r]) := by
  by_cases hchain : chain = c
  · subst hchain
    have hnot : Command.flush chain ∉ ([.append chain r] : List FwCommand) := fun hmem => by
      cases List.mem_singleton.mp hmem
    refine grows_call (fun hmem => absurd hmem hnot) fun l hl => ?_
    have hcases : (w.call env [.append chain r]).rules.lookup chain = some (l ++ [r]) ∨
        (w.call env [.append chain r]).rules.lookup chain = some l := by
      rw [call_rules]
      split
      · exact lookup_execAll_append_cases hl
      · exact .inr hl
    rcases hcases with h | h
    · refine ⟨[r], fun r' hr => ?_, .inl ⟨hnot, h⟩⟩
      obtain rfl := List.mem_singleton.mp hr
      exact hP rfl
    · refine ⟨[], fun r' hr => absurd hr List.not_mem_nil, .inl ⟨hnot, ?_⟩⟩
      rw [h, List.append_nil]
  · exact grows_call_of_ne (chain_ne rfl hchain)

theorem grows_list : Grows c P w (w.call env [.list]) := by
  apply grows_call_of_ne
  intro cmd hmem
  obtain rfl := List.mem_singleton.mp hmem
  exact (Option.some_ne_none c).symm

theorem grows_addRules {chain zone : String} {jump : FwRule} {v : Verdict} (hzone : zone ≠ c)
    (hP : chain = c → P jump) :
    Grows c P w (w.addRules env (.iptables [.append chain jump]) zone v) :=
  (grows_append hP).trans (grows_call_of_ne (chain_ne rfl hzone))

/-! ### The parts of a run -/

section Parts

variable (htrusted : TRUSTED_ZONE_RULES ≠ c) (huntrusted : UNTRUSTED_ZONE_RULES ≠ c)

include htrusted huntrusted

theorem grows_flush (w : World) : Grows c P w (w.flush env) := by
  refine Grows.trans ?_ ((grows_call_of_ne (chain_ne rfl htrusted)).trans
    (grows_call_of_ne (chain_ne rfl huntrusted)))
  show Grows c P w (w.call env flushCommands)
  by_cases houtput : OUTPUT = c
  · subst houtput
    have hmem : Command.flush OUTPUT ∈ flushCommands :=
      List.mem_cons_of_mem _ (List.mem_cons_of_mem _ List.mem_cons_self)
    refine grows_call (fun _ => rfl) fun l hl => ?_
    refine ⟨[], fun r hr => absurd hr List.not_mem_nil, .inr ⟨hmem, ?_⟩⟩
    rw [lookup_output_call_flush, hl, List.append_nil]
    exact (apply_ite some _ _ _).symm
  · apply grows_call_of_ne
    intro cmd hmem
    simp only [flushCommands, List.mem_cons, List.not_mem_nil, or_false] at hmem
    rcases hmem with rfl | rfl | rfl
    · exact fun h => htrusted (Option.some.inj h)
    · exact fun h => huntrusted (Option.some.inj h)
    · exact fun h => houtput (Option.some.inj h)

theorem grows_exit (w : World) : Grows c P w (w.exit env) :=
  (grows_flush htrusted huntrusted w).trans grows_list

theorem grows_newUntrusted (w : World) : Grows c P w (w.newUntrusted env) :=
  (grows_flush htrusted huntrusted w).trans (grows_call_of_ne (chain_ne rfl huntrusted))

theorem grows_newTrusted (w : World) : Grows c P w (w.newTrusted env) :=
  (grows_newUntrusted htrusted huntrusted w).trans (grows_call_of_ne (chain_ne rfl htrusted))

theorem grows_blocked (hblock : OUTPUT = c → P (blockRule cfg)) (w : World) :
    Grows c P w (w.blocked env cfg) :=
  (grows_newTrusted htrusted huntrusted w).trans (grows_addRules huntrusted hblock)

theorem grows_accepted (hword : env.OneWord cfg.fwAttrInterface)
    (hblock : OUTPUT = c → P (blockRule cfg)) (haccept : INPUT = c → P (acceptRule cfg))
    (w : World) : Grows c P w (w.accepted env cfg) := by
  rw [World.accepted, acceptLine_of_oneWord hword]
  exact (grows_blocked htrusted huntrusted hblock w).trans (grows_addRules htrusted haccept)

/-- **One run**, wherever `start` leaves its set-up. -/
theorem grows_cycle (hword : env.OneWord cfg.fwAttrInterface)
    (hblock : OUTPUT = c → P (blockRule cfg)) (haccept : INPUT = c → P (acceptRule cfg)) (rc : ℤ)
    (w : World) :
    Grows c P w (cycle env cfg rc w).2 := by
  have hexit : ∀ w', Grows c P w w' → Grows c P w (w'.exit env) :=
    fun w' h => h.trans (grows_exit htrusted huntrusted w')
  unfold cycle
  rw [bind_run, start_run]
  split
  · exact hexit _ (grows_newUntrusted htrusted huntrusted w)
  split
  · exact hexit _ (grows_newTrusted htrusted huntrusted w)
  split
  · exact hexit _ (grows_blocked htrusted huntrusted hblock w)
  have haccepted : Grows c P w (w.accepted env cfg) :=
    grows_accepted htrusted huntrusted hword hblock haccept w
  split
  · exact hexit _ haccepted
  · show Grows c P w (freeAndExit env rc (w.setUp env cfg)).2
    rw [freeAndExit_run]
    exact hexit _ (haccepted.trans grows_list)

/-- **All runs.** -/
theorem grows_cycles {runs : List (FwConfigAttrs × ℤ)}
    (hword : ∀ run ∈ runs, env.OneWord run.1.fwAttrInterface)
    (hblock : ∀ run ∈ runs, OUTPUT = c → P (blockRule run.1))
    (haccept : ∀ run ∈ runs, INPUT = c → P (acceptRule run.1)) (w : World) :
    Grows c P w (cycles env w runs) := by
  induction runs generalizing w with
  | nil => exact Grows.refl w
  | cons run runs ih =>
    have hrun : Grows c P w (cycle env run.1 run.2 w).2 :=
      grows_cycle htrusted huntrusted (hword run List.mem_cons_self)
        (hblock run List.mem_cons_self) (haccept run List.mem_cons_self) run.2 w
    refine hrun.trans (ih ?_ ?_ ?_ _)
    · exact fun run' hmem => hword run' (List.mem_cons_of_mem run hmem)
    · exact fun run' hmem => hblock run' (List.mem_cons_of_mem run hmem)
    · exact fun run' hmem => haccept run' (List.mem_cons_of_mem run hmem)

end Parts

/-! ### The rules of others -/

/-- Some call has emptied OUTPUT. -/
def World.Cleared (w : World) : Prop := ∃ call ∈ w.log, call.Clears OUTPUT

/-- **The frame of any sequence of runs** whose interfaces are words to the
shell, from whatever ruleset and in any environment: INPUT keeps its rules, in
order, and gets jumps of the runs behind them.  OUTPUT does the same until a
flush gets through, which it does when both zones are there, and then holds
nothing but jumps of the runs. -/
theorem cycles_frame (env : Env) (rules : Rules) (runs : List (FwConfigAttrs × ℤ))
    (hword : ∀ run ∈ runs, env.OneWord run.1.fwAttrInterface)
    {input output : List FwRule} (hinput : rules.lookup INPUT = some input)
    (houtput : rules.lookup OUTPUT = some output) :
    (∃ added, (∀ r ∈ added, ∃ run ∈ runs, r = acceptRule run.1) ∧
      (cycles env ⟨rules, []⟩ runs).rules.lookup INPUT = some (input ++ added)) ∧
    (∃ added, (∀ r ∈ added, ∃ run ∈ runs, r = blockRule run.1) ∧
      (¬ (cycles env ⟨rules, []⟩ runs).Cleared →
        (cycles env ⟨rules, []⟩ runs).rules.lookup OUTPUT = some (output ++ added)) ∧
      ((cycles env ⟨rules, []⟩ runs).Cleared →
        (cycles env ⟨rules, []⟩ runs).rules.lookup OUTPUT = some added)) ∧
    ∀ w : World, w.accepts env flushCommands = true ↔
      (env.response w.log.length).ran = true ∧ TRUSTED_ZONE_RULES ∈ w.rules ∧
        UNTRUSTED_ZONE_RULES ∈ w.rules ∧ OUTPUT ∈ w.rules := by
  refine ⟨?_, ?_, accepts_flushCommands_iff env⟩
  · have hgrows : Grows INPUT (fun r => ∃ run ∈ runs, r = acceptRule run.1) ⟨rules, []⟩
        (cycles env ⟨rules, []⟩ runs) :=
      grows_cycles (by decide) (by decide) hword (fun run _ h => absurd h (by decide))
        (fun run hmem _ => ⟨run, hmem, rfl⟩) _
    obtain ⟨calls, -, hflush, hrules⟩ := hgrows
    obtain ⟨added, hadded, ⟨-, hl⟩ | ⟨⟨call, hmem, -, hclears⟩, -⟩⟩ := hrules input hinput
    · exact ⟨added, hadded, hl⟩
    · exact absurd (hflush call hmem hclears) (by decide)
  · have hgrows : Grows OUTPUT (fun r => ∃ run ∈ runs, r = blockRule run.1) ⟨rules, []⟩
        (cycles env ⟨rules, []⟩ runs) :=
      grows_cycles (by decide) (by decide) hword (fun run hmem _ => ⟨run, hmem, rfl⟩)
        (fun run _ h => absurd h (by decide)) _
    obtain ⟨calls, hlog, -, hrules⟩ := hgrows
    have hcleared : (cycles env ⟨rules, []⟩ runs).Cleared ↔ ∃ call ∈ calls, call.Clears OUTPUT := by
      rw [World.Cleared, hlog, List.append_nil]
    obtain ⟨added, hadded, ⟨hkeep, hl⟩ | ⟨hclears, hl⟩⟩ := hrules output houtput
    · refine ⟨added, hadded, fun _ => hl, fun h => ?_⟩
      obtain ⟨call, hmem, hclears⟩ := hcleared.mp h
      exact absurd hclears (hkeep call hmem)
    · exact ⟨added, hadded, fun h => absurd (hcleared.mpr hclears) h, fun _ => hl⟩

/-! ### A working environment -/

/-- A call of one command that deletes no chain keeps the chains. -/
theorem mem_call {cmd : FwCommand} (hne : cmd ≠ .deleteChain c) (hc : c ∈ w.rules) :
    c ∈ (w.call env [cmd]).rules := by
  rw [call_rules]
  split
  · rw [execAll_singleton]
    cases h : exec env.valid w.rules cmd with
    | none => exact hc
    | some rules => exact mem_exec h hne hc
  · exact hc

/-- When the threads are created both zones are there. -/
theorem zones_mem_setUp (hwork : env.Working)
    (hword : env.OneWord cfg.fwAttrInterface) (w : World) :
    TRUSTED_ZONE_RULES ∈ (w.setUp env cfg).rules ∧
      UNTRUSTED_ZONE_RULES ∈ (w.setUp env cfg).rules := by
  have hmem : ∀ c, c ∈ (w.newTrusted env).rules → c ∈ (w.setUp env cfg).rules := by
    intro c hc
    rw [setUp_of_oneWord hword]
    unfold World.blocked World.addRules
    iterate 5 refine mem_call (by rintro ⟨⟩) ?_
    exact hc
  constructor
  · apply hmem
    unfold World.newTrusted
    rw [call_rules_of_working hwork]
    exact mem_execAll_newChain TRUSTED_ZONE_RULES
  · apply hmem
    refine mem_call (by rintro ⟨⟩) ?_
    unfold World.newUntrusted
    rw [call_rules_of_working hwork]
    exact mem_execAll_newChain UNTRUSTED_ZONE_RULES

/-- **A run that works leaves OUTPUT empty**: the flush of its `free_and_exit`
gets through. -/
theorem lookup_output_cycle (hwork : env.Working)
    (hword : env.OneWord cfg.fwAttrInterface) (rc : ℤ) {output : List FwRule}
    (houtput : w.rules.lookup OUTPUT = some output) :
    (cycle env cfg rc w).2.rules.lookup OUTPUT = some [] := by
  have hgrows : Grows OUTPUT (fun _ => True) w (w.setUp env cfg) :=
    (grows_accepted (by decide) (by decide) hword (fun _ => trivial) (fun _ => trivial) w).trans
      grows_list
  have hmem : OUTPUT ∈ (w.setUp env cfg).rules := by
    obtain ⟨calls, -, -, hrules⟩ := hgrows
    obtain ⟨added, -, ⟨-, hl⟩ | ⟨-, hl⟩⟩ := hrules output houtput
    · exact AList.lookup_isSome.mp (Option.isSome_of_eq_some hl)
    · exact AList.lookup_isSome.mp (Option.isSome_of_eq_some hl)
  have hacc : (w.setUp env cfg).accepts env flushCommands = true := by
    obtain ⟨ht, hu⟩ := zones_mem_setUp hwork hword w
    exact (accepts_flushCommands_iff env _).mpr ⟨(hwork _).1, ht, hu, hmem⟩
  rw [cycle_of_working hwork]
  unfold World.exit World.flush
  rw [lookup_list, lookup_call_of_ne (chain_ne rfl (by decide)),
    lookup_call_of_ne (chain_ne rfl (by decide))]
  show ((w.setUp env cfg).call env flushCommands).rules.lookup OUTPUT = some []
  rw [lookup_output_call_flush, if_pos hacc]

/-! ### A rule of others -/

/-- `-d 192.168.1.0/24 -j REJECT`, which is not a rule of the service. -/
def foreignRule : FwRule := ⟨.destination ⟨0x1A8C0, 24⟩, .verdict .reject⟩

/-- A fresh host with that rule in INPUT and in OUTPUT. -/
def foreignRules : Rules := (emptyRules.insert INPUT [foreignRule]).insert OUTPUT [foreignRule]

/-- Refused are the first flush, for want of the zones, and at the end the
deletion of TRUSTED, to which INPUT still jumps. -/
def firstRun : Env := envOf [256, 256, 256, 0, 0, 0, 0, 0, 0, 0, 0, 256]

theorem cycles_frame_foreign :
    ∃ added, (∀ r ∈ added, ∃ run ∈ [(cfgOf 24 24, (0 : ℤ))], r = acceptRule run.1) ∧
      (cycles firstRun ⟨foreignRules, []⟩ [(cfgOf 24 24, 0)]).rules.lookup INPUT =
        some (foreignRule :: added) := by
  have hinput : foreignRules.lookup INPUT = some [foreignRule] := rfl
  have houtput : foreignRules.lookup OUTPUT = some [foreignRule] := rfl
  have hword : ∀ run ∈ [(cfgOf 24 24, (0 : ℤ))], firstRun.OneWord run.1.fwAttrInterface :=
    List.forall_mem_singleton.mpr ⟨by decide, by decide⟩
  exact (cycles_frame firstRun foreignRules [(cfgOf 24 24, 0)] hword hinput houtput).1

/-- In OUTPUT it does not survive the first run. -/
theorem not_cycles_keep :
    ¬ ∀ env rules runs c, c = INPUT ∨ c = OUTPUT → ∀ l, rules.lookup c = some l →
      ∃ l', (cycles env ⟨rules, []⟩ runs).rules.lookup c = some l' ∧ l.Sublist l' := by
  intro h
  obtain ⟨l', hl', hsub⟩ := h firstRun foreignRules [(cfgOf 24 24, 0)] OUTPUT (.inr rfl)
    [foreignRule] rfl
  have hempty : (cycles firstRun ⟨foreignRules, []⟩ [(cfgOf 24 24, 0)]).rules.lookup OUTPUT =
      some [] := rfl
  obtain rfl := Option.some.inj (hempty.symm.trans hl')
  cases hsub

end SecuritySystem.Firewall
