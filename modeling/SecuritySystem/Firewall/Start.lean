/-
SecuritySystem/Firewall/Start.lean

What `start` checks before it creates the capture threads.

The helpers turn the result of `system` into a flag with `< 0`, so a refused
command, whose status is positive, counts as done; and the line with the
interface may be another command altogether.  `start_iff` says when that goes
well: `start` keeps its promise (the threads are created only behind six
successful commands, and otherwise an error is returned) exactly when `system`
itself failed at one of the six calls, or the interface is one word to the shell,
as it stands, and all six statuses are 0.

The calls are counted from the beginning: `fw_ip_tables_flush` makes the calls
0 to 2, the six commands are the calls 3 to 8.
-/
import SecuritySystem.Firewall.Rules

namespace SecuritySystem.Firewall

open CMem CString Iptables

variable {env : Env} {cfg : FwConfigAttrs} {w : World} {cmds : List FwCommand} {line : Line}

/-! ### Runs -/

theorem bind_run {α β : Type} (x : StateM World α) (f : α → StateM World β) (w : World) :
    (x >>= f) w = f (x w).1 (x w).2 := rfl

theorem ite_run {α : Type} (p : Prop) [Decidable p] (x y : StateM World α) (w : World) :
    (if p then x else y) w = if p then x w else y w := by
  split <;> rfl

/-! ### The two lines with the configuration -/

theorem inert_digitChar {d : ℕ} (hd : d < 10) : Shell.inert (digitChar d) = true := by
  have hall : ∀ d < 10, Shell.inert (digitChar d) = true := by decide
  exact hall d hd

theorem inert_numeral (n : ℕ) : (numeral 10 n).bytes.all Shell.inert = true := by
  refine List.all_eq_true.mpr fun c hc => ?_
  rw [bytes_numeral] at hc
  obtain ⟨d, hd, rfl⟩ := List.mem_map.mp hc
  exact inert_digitChar (decimalDigits_lt hd)

/-- A network is made of digits, dots and a slash. -/
theorem inert_printNetwork (net : Network) :
    (printNetwork net).bytes.all Shell.inert = true := by
  have hdot : (lit ".").bytes.all Shell.inert = true := by decide
  have hslash : (lit "/").bytes.all Shell.inert = true := by decide
  simp only [printNetwork, inetNtoa, dottedQuad, bytes_append, List.all_append, Bool.and_eq_true]
  exact ⟨⟨⟨⟨⟨⟨⟨⟨inert_numeral _, hdot⟩, inert_numeral _⟩, hdot⟩, inert_numeral _⟩, hdot⟩,
    inert_numeral _⟩, hslash⟩, inert_numeral _⟩

theorem printNetwork_ne_nil (net : Network) : (printNetwork net).bytes ≠ [] := by
  simp only [printNetwork, bytes_append]
  refine List.append_ne_nil_of_left_ne_nil (List.append_ne_nil_of_right_ne_nil _ ?_) _
  decide

/-- Such words are words to every shell. -/
theorem oneWord_of_inert {v : CString} (hne : v.bytes ≠ [])
    (h : v.bytes.all Shell.inert = true) : env.OneWord v where
  plain := Shell.plain_of_inert hne h
  kept hmay := by
    rw [Shell.mayExpand_of_inert h] at hmay
    cases hmay

theorem oneWord_printNetwork (net : Network) : env.OneWord (printNetwork net) :=
  oneWord_of_inert (printNetwork_ne_nil net) (inert_printNetwork net)

/-- So are the fixed words of a line. -/
theorem oneWord_of_mem {fixed : List CString}
    (h : fixed.all (fun v => v.bytes ≠ [] ∧ v.bytes.all Shell.inert = true) = true) :
    ∀ v ∈ fixed, env.OneWord v := by
  intro v hv
  have hinert := of_decide_eq_true (List.all_eq_true.mp h v hv)
  exact oneWord_of_inert hinert.1 hinert.2

/-- A line of such words is the command that it stands for. -/
theorem lineOf_of_oneWord {words : List CString} (h : ∀ v ∈ words, env.OneWord v)
    (cmd : FwCommand) : lineOf env words cmd = .iptables [cmd] := by
  have hbytes : ∀ word ∈ words.map bytes, Shell.Plain word ∧ env.Keeps word := by
    intro word hword
    obtain ⟨v, hmem, rfl⟩ := List.mem_map.mp hword
    exact ⟨(h v hmem).plain, (h v hmem).kept⟩
  exact if_pos ⟨Shell.lex_unwords fun word hword => (hbytes word hword).1,
    fun word hword => (hbytes word hword).2⟩

theorem blockLine_eq (env : Env) (cfg : FwConfigAttrs) :
    blockLine env cfg = .iptables [.append OUTPUT (blockRule cfg)] := by
  show lineOf env ([lit "sudo", lit "iptables", lit "-A", lit OUTPUT, lit "-d"] ++
    printNetwork cfg.fwUntrustedNetwork :: [lit "-j", lit UNTRUSTED_ZONE_RULES]) _ = _
  refine lineOf_of_oneWord (List.forall_mem_append.mpr ⟨oneWord_of_mem (by decide), ?_⟩) _
  exact List.forall_mem_cons.mpr ⟨oneWord_printNetwork _, oneWord_of_mem (by decide)⟩

theorem acceptLine_of_oneWord (h : env.OneWord cfg.fwAttrInterface) :
    acceptLine env cfg = .iptables [.append INPUT (acceptRule cfg)] := by
  show lineOf env ([lit "sudo", lit "iptables", lit "-A", lit INPUT, lit "-i"] ++
    cfg.fwAttrInterface :: ([lit "-s"] ++
      printNetwork cfg.fwTrustedNetwork :: [lit "-j", lit TRUSTED_ZONE_RULES])) _ = _
  refine lineOf_of_oneWord (List.forall_mem_append.mpr ⟨oneWord_of_mem (by decide), ?_⟩) _
  refine List.forall_mem_cons.mpr ⟨h, List.forall_mem_append.mpr ⟨oneWord_of_mem (by decide), ?_⟩⟩
  exact List.forall_mem_cons.mpr ⟨oneWord_printNetwork _, oneWord_of_mem (by decide)⟩

/-- **An interface that is not one word** changes the command. -/
theorem acceptLine_of_not_oneWord (h : ¬ env.OneWord cfg.fwAttrInterface) :
    ∃ text, acceptLine env cfg = .other text := by
  refine ⟨_, if_neg fun ⟨hlex, hkeeps⟩ => h ⟨?_, hkeeps _ ?_⟩⟩
  · have hfront : ∀ v ∈ [(lit "sudo").bytes, (lit "iptables").bytes, (lit "-A").bytes,
        (lit INPUT).bytes, (lit "-i").bytes], Shell.Plain v := by decide
    exact Shell.plain_of_lex_unwords hfront (List.cons_ne_nil _ _) hlex
  · exact List.mem_map_of_mem (by simp)

/-! ### One call of `system` -/

section Call

variable (env)

/-- The world behind a line that is given to the shell. -/
def World.shell (w : World) (line : Line) : World := (system env line w).2

/-- The world behind a call. -/
def World.call (w : World) (cmds : List FwCommand) : World := w.shell env (.iptables cmds)

/-- The call carries out all its commands. -/
def World.accepts (w : World) (cmds : List FwCommand) : Bool :=
  if (env.response w.log.length).ran then (execAll env.valid cmds w.rules).2 else false

theorem call_log (w : World) (cmds : List FwCommand) :
    (w.call env cmds).log =
      ⟨cmds, (env.response w.log.length).status, w.accepts env cmds⟩ :: w.log := by
  show ⟨cmds, _, (if _ then _ else (w.rules, false) : Rules × Bool).2⟩ :: w.log = _
  rw [apply_ite Prod.snd]
  rfl

theorem call_rules (w : World) (cmds : List FwCommand) :
    (w.call env cmds).rules =
      if (env.response w.log.length).ran then (execAll env.valid cmds w.rules).1 else w.rules := by
  show (if _ then _ else (w.rules, false) : Rules × Bool).1 = _
  rw [apply_ite Prod.fst]

end Call

/-- A call leaves alone the chains that its commands do not name. -/
theorem lookup_call_of_ne {c : String} (hne : ∀ cmd ∈ cmds, cmd.chain ≠ some c) :
    (w.call env cmds).rules.lookup c = w.rules.lookup c := by
  rw [call_rules]
  split
  · exact lookup_execAll_of_ne hne
  · rfl

/-- The chain holds the rule. -/
def Holds (rules : Rules) (c : String) (r : FwRule) : Prop :=
  ∃ l, rules.lookup c = some l ∧ r ∈ l

/-- A rule that has been appended is in its chain. -/
theorem holds_of_append_accepts {c : String} {r : FwRule}
    (h : w.accepts env [.append c r] = true) : Holds (w.call env [.append c r]).rules c r := by
  unfold World.accepts at h
  split at h
  · next hran =>
    obtain ⟨l, hl⟩ := lookup_of_append_accepted h
    refine ⟨l ++ [r], ?_, List.mem_append_right l List.mem_cons_self⟩
    rw [call_rules, if_pos hran]
    exact hl
  · cases h

/-- It stays there while the commands name other chains. -/
theorem Holds.call {c : String} {r : FwRule} (h : Holds w.rules c r)
    (hne : ∀ cmd ∈ cmds, cmd.chain ≠ some c) : Holds (w.call env cmds).rules c r := by
  obtain ⟨l, hl, hr⟩ := h
  exact ⟨l, (lookup_call_of_ne hne).trans hl, hr⟩

theorem flag_nonneg (p : Prop) [Decidable p] : 0 ≤ flag p := by
  unfold flag
  split <;> decide

theorem flag_ne_zero_iff (p : Prop) [Decidable p] : flag p ≠ 0 ↔ p := by
  unfold flag
  split
  · next h => exact iff_of_true (by decide) h
  · next h => exact iff_of_false (by decide) h

theorem lor_flag_eq (p q : Prop) [Decidable p] [Decidable q] :
    Int.lor (flag p) (flag q) = flag (p ∨ q) := by
  by_cases hp : p <;> by_cases hq : q <;> simp only [flag, hp, hq, if_true, if_false, or_self,
    or_true, true_or] <;> rfl

/-! ### The parts of a run -/

section Parts

variable (env)

/-- The world behind `fw_ip_tables_flush`. -/
def World.flush (w : World) : World :=
  ((w.call env [.flush TRUSTED_ZONE_RULES, .flush UNTRUSTED_ZONE_RULES, .flush OUTPUT]).call env
    [.deleteChain TRUSTED_ZONE_RULES]).call env [.deleteChain UNTRUSTED_ZONE_RULES]

/-- The world behind the two calls of `addRules`. -/
def World.addRules (w : World) (jump : Line) (zone : String) (v : Verdict) : World :=
  (w.shell env jump).call env [.append zone ⟨.any, .verdict v⟩]

/-- The world behind `free_and_exit`. -/
def World.exit (w : World) : World := (w.flush env).call env [.list]

/-- The worlds behind the four steps of `start`, and the one in which it
creates the threads. -/
def World.newUntrusted (w : World) : World :=
  (w.flush env).call env [.newChain UNTRUSTED_ZONE_RULES]

/-- The second step: `TRUSTED` is created. -/
def World.newTrusted (w : World) : World :=
  (w.newUntrusted env).call env [.newChain TRUSTED_ZONE_RULES]

/-- The third: the untrusted network is rejected. -/
def World.blocked (w : World) (cfg : FwConfigAttrs) : World :=
  (w.newTrusted env).addRules env (.iptables [.append OUTPUT (blockRule cfg)])
    UNTRUSTED_ZONE_RULES .reject

/-- The fourth: the trusted network is accepted. -/
def World.accepted (w : World) (cfg : FwConfigAttrs) : World :=
  (w.blocked env cfg).addRules env (acceptLine env cfg) TRUSTED_ZONE_RULES .accept

/-- The rules are listed, and the threads come next. -/
def World.setUp (w : World) (cfg : FwConfigAttrs) : World :=
  (w.accepted env cfg).call env [.list]

/-- The result of the `i`-th call from here on is negative. -/
def World.failsAt (w : World) (i : ℕ) : Prop := (env.response (w.log.length + i)).status < 0

instance (w : World) (i : ℕ) : Decidable (w.failsAt env i) := by
  unfold World.failsAt
  infer_instance

theorem fwIpTablesFlush_run (w : World) :
    fwIpTablesFlush env w =
      (flag ((w.failsAt env 0 ∨ w.failsAt env 1) ∨ w.failsAt env 2), w.flush env) := by
  rw [← lor_flag_eq, ← lor_flag_eq]
  rfl

theorem addRules_run (w : World) (jump : Line) (zone : String) (v : Verdict) :
    addRules env jump zone v w =
      (flag (w.failsAt env 0 ∨ w.failsAt env 1), w.addRules env jump zone v) := by
  rw [← lor_flag_eq]
  rfl

/-- The flag that `free_and_exit` adds to its argument is always 0. -/
theorem freeAndExit_run (rc : ℤ) (w : World) :
    freeAndExit env rc w = (Int.lor rc 0, w.exit env) := by
  have hflushed : ¬ (fwIpTablesFlush env w).1 < 0 := by
    rw [fwIpTablesFlush_run]
    exact Int.not_lt.mpr (flag_nonneg _)
  have hsaved : flag ((fwIpTablesSave env (w.flush env)).1 < 0) = 0 :=
    if_neg (Int.not_lt.mpr (flag_nonneg _))
  unfold freeAndExit
  rw [bind_run, ite_run, if_neg hflushed, bind_run, fwIpTablesFlush_run]
  show (Int.lor rc (flag ((fwIpTablesSave env (w.flush env)).1 < 0)), w.exit env) = _
  rw [hsaved]

theorem lor_error_zero : Int.lor FW_SERVICE_ERROR_CODE 0 = -1 := by
  show Int.negSucc (Nat.ldiff 0 0) = -1
  rw [Nat.ldiff, Nat.bitwise_zero]
  rfl

/-- A guarded step of `start`. -/
theorem guard_run {act : StateM World ℤ} {rest : StateM World StartResult} {w w' : World}
    {p : Prop} [Decidable p] (hact : act w = (flag p, w')) :
    (do if (← act) ≠ 0 then
          return StartResult.returned (← freeAndExit env FW_SERVICE_ERROR_CODE)
        else rest : StateM World StartResult) w =
      if p then (.returned (-1), w'.exit env) else rest w' := by
  rw [bind_run, ite_run, hact]
  by_cases hp : p
  · rw [if_pos ((flag_ne_zero_iff p).mpr hp), if_pos hp, bind_run]
    show (StartResult.returned (freeAndExit env FW_SERVICE_ERROR_CODE w').1,
      (freeAndExit env FW_SERVICE_ERROR_CODE w').2) = _
    rw [freeAndExit_run, lor_error_zero]
  · rw [if_neg fun h => hp ((flag_ne_zero_iff p).mp h), if_neg hp]

/-- **`start`**, call by call. -/
theorem start_run (w : World) (cfg : FwConfigAttrs) :
    start env cfg w =
      if w.failsAt env 3 then (.returned (-1), (w.newUntrusted env).exit env)
      else if w.failsAt env 4 then (.returned (-1), (w.newTrusted env).exit env)
      else if w.failsAt env 5 ∨ w.failsAt env 6 then
        (.returned (-1), (w.blocked env cfg).exit env)
      else if w.failsAt env 7 ∨ w.failsAt env 8 then
        (.returned (-1), (w.accepted env cfg).exit env)
      else (.threads, w.setUp env cfg) := by
  have huntrusted : fwUntrustedNetworkRulesInit env (w.flush env) =
      (flag (w.failsAt env 3), w.newUntrusted env) := rfl
  have htrusted : fwTrustedNetworkRulesInit env (w.newUntrusted env) =
      (flag (w.failsAt env 4), w.newTrusted env) := rfl
  have hblock : fwAddBlockRuleForUntrustedZone env cfg (w.newTrusted env) =
      (flag (w.failsAt env 5 ∨ w.failsAt env 6), w.blocked env cfg) := by
    rw [fwAddBlockRuleForUntrustedZone, blockLine_eq]
    exact addRules_run env (w.newTrusted env) ..
  have haccept : fwAddAcceptRuleForTrustedZone env cfg (w.blocked env cfg) =
      (flag (w.failsAt env 7 ∨ w.failsAt env 8), w.accepted env cfg) :=
    addRules_run env (w.blocked env cfg) ..
  unfold start
  rw [bind_run, fwIpTablesFlush_run, guard_run env huntrusted, guard_run env htrusted]
  -- the other two guards compare the other way round
  simp only [ne_comm (a := FW_SERVICE_NORMAL_CODE)]
  unfold FW_SERVICE_NORMAL_CODE
  rw [guard_run env hblock, guard_run env haccept]
  rfl

end Parts

/-! ### The promise of `start` -/

/-- The six commands that set up the two zones. -/
def setUpCommands (cfg : FwConfigAttrs) : List FwCommand :=
  [.newChain UNTRUSTED_ZONE_RULES, .newChain TRUSTED_ZONE_RULES,
    .append OUTPUT (blockRule cfg), .append UNTRUSTED_ZONE_RULES ⟨.any, .verdict .reject⟩,
    .append INPUT (acceptRule cfg), .append TRUSTED_ZONE_RULES ⟨.any, .verdict .accept⟩]

/-- The rules of the two zones are there. -/
structure Installed (rules : Rules) (cfg : FwConfigAttrs) : Prop where
  block : Holds rules OUTPUT (blockRule cfg)
  reject : Holds rules UNTRUSTED_ZONE_RULES ⟨.any, .verdict .reject⟩
  jump : Holds rules INPUT (acceptRule cfg)
  accept : Holds rules TRUSTED_ZONE_RULES ⟨.any, .verdict .accept⟩

/-- `start` goes on to the threads only if each of the six commands was run
with status 0 and the rules are there, and otherwise returns an error. -/
def StartSafe (env : Env) (cfg : FwConfigAttrs) (rules : Rules) : Prop :=
  match start env cfg ⟨rules, []⟩ with
  | (.threads, w) => (∀ cmd ∈ setUpCommands cfg, ∃ call ∈ w.log,
      call.commands = [cmd] ∧ call.status = 0) ∧ Installed w.rules cfg
  | (.returned rc, _) => rc ≠ 0

/-- The environment is honest: `system` returns 0 for no command that was not
carried out. -/
def Admissible (env : Env) (cfg : FwConfigAttrs) (rules : Rules) : Prop :=
  ∀ call ∈ (start env cfg ⟨rules, []⟩).2.log, call.status = 0 → call.accepted = true

instance (env : Env) (cfg : FwConfigAttrs) (rules : Rules) :
    Decidable (Admissible env cfg rules) :=
  inferInstanceAs (Decidable (∀ call ∈ _, _ → _))

theorem setUp_index {i : ℕ} (h3 : 3 ≤ i) (h9 : i < 9) :
    i = 3 ∨ i = 4 ∨ i = 5 ∨ i = 6 ∨ i = 7 ∨ i = 8 := by omega

theorem start_of_fails {rules : Rules} {i : ℕ} (h3 : 3 ≤ i) (h9 : i < 9)
    (hi : (env.response i).status < 0) :
    ∃ w, start env cfg ⟨rules, []⟩ = (.returned (-1), w) := by
  have hfails : World.failsAt env ⟨rules, []⟩ i := by
    show (env.response (0 + i)).status < 0
    rw [Nat.zero_add]
    exact hi
  rw [start_run]
  split
  · exact ⟨_, rfl⟩
  split
  · exact ⟨_, rfl⟩
  split
  · exact ⟨_, rfl⟩
  split
  · exact ⟨_, rfl⟩
  · exfalso
    rcases setUp_index h3 h9 with rfl | rfl | rfl | rfl | rfl | rfl
    all_goals simp_all

theorem start_of_not_fails {w : World} (h : ∀ i, 3 ≤ i → i < 9 → ¬ w.failsAt env i) :
    start env cfg w = (.threads, w.setUp env cfg) := by
  rw [start_run, if_neg (h 3 (by decide) (by decide)), if_neg (h 4 (by decide) (by decide)),
    if_neg (not_or.mpr ⟨h 5 (by decide) (by decide), h 6 (by decide) (by decide)⟩),
    if_neg (not_or.mpr ⟨h 7 (by decide) (by decide), h 8 (by decide) (by decide)⟩)]

theorem start_threads {rules : Rules} (h : ∀ i, 3 ≤ i → i < 9 → ¬ (env.response i).status < 0) :
    start env cfg ⟨rules, []⟩ = (.threads, World.setUp env ⟨rules, []⟩ cfg) := by
  apply start_of_not_fails
  intro i h3 h9 hi
  apply h i h3 h9
  rw [← Nat.zero_add i]
  exact hi

/-- All calls of a set-up, with what `system` returned. -/
theorem setUp_log (env : Env) (cfg : FwConfigAttrs) (rules : Rules) :
    (World.setUp env ⟨rules, []⟩ cfg).log.map (fun call => (call.commands, call.status)) = [
      ([.list], (env.response 9).status),
      ([.append TRUSTED_ZONE_RULES ⟨.any, .verdict .accept⟩], (env.response 8).status),
      ((acceptLine env cfg).commands, (env.response 7).status),
      ([.append UNTRUSTED_ZONE_RULES ⟨.any, .verdict .reject⟩], (env.response 6).status),
      ([.append OUTPUT (blockRule cfg)], (env.response 5).status),
      ([.newChain TRUSTED_ZONE_RULES], (env.response 4).status),
      ([.newChain UNTRUSTED_ZONE_RULES], (env.response 3).status),
      ([.deleteChain UNTRUSTED_ZONE_RULES], (env.response 2).status),
      ([.deleteChain TRUSTED_ZONE_RULES], (env.response 1).status),
      ([.flush TRUSTED_ZONE_RULES, .flush UNTRUSTED_ZONE_RULES, .flush OUTPUT],
        (env.response 0).status)] := by
  unfold World.setUp World.accepted
  generalize acceptLine env cfg = line
  rfl

/-- The six commands were run with status 0 exactly if the line with the
interface was read as the command that is meant, and the six calls returned 0. -/
theorem setUpCommands_iff (env : Env) (cfg : FwConfigAttrs) (rules : Rules) :
    (∀ cmd ∈ setUpCommands cfg, ∃ call ∈ (World.setUp env ⟨rules, []⟩ cfg).log,
        call.commands = [cmd] ∧ call.status = 0) ↔
      env.OneWord cfg.fwAttrInterface ∧
        ∀ i, 3 ≤ i → i < 9 → (env.response i).status = 0 := by
  -- the log as a list of commands with their statuses, in which the nine calls are told apart
  have hmap : ∀ cmd, (∃ call ∈ (World.setUp env ⟨rules, []⟩ cfg).log,
      call.commands = [cmd] ∧ call.status = 0) ↔ ([cmd], (0 : ℤ)) ∈
        (World.setUp env ⟨rules, []⟩ cfg).log.map fun call => (call.commands, call.status) := by
    intro cmd
    rw [List.mem_map]
    simp only [Prod.mk.injEq]
  simp only [hmap, setUp_log]
  by_cases hword : env.OneWord cfg.fwAttrInterface
  swap
  · -- the command of the jump to TRUSTED is not among them
    obtain ⟨text, htext⟩ := acceptLine_of_not_oneWord hword
    refine iff_of_false (fun h => ?_) fun h => hword h.1
    have hjump := h (.append INPUT (acceptRule cfg)) (by simp [setUpCommands])
    rw [htext] at hjump
    simp [Line.commands, TRUSTED_ZONE_RULES, UNTRUSTED_ZONE_RULES, OUTPUT, INPUT] at hjump
  rw [acceptLine_of_oneWord hword, and_iff_right hword]
  have hsix : (∀ i, 3 ≤ i → i < 9 → (env.response i).status = 0) ↔
      0 = (env.response 3).status ∧ 0 = (env.response 4).status ∧ 0 = (env.response 5).status ∧
        0 = (env.response 6).status ∧ 0 = (env.response 7).status ∧
          0 = (env.response 8).status := by
    constructor
    · intro h
      have hs : ∀ i, 3 ≤ i → i < 9 → 0 = (env.response i).status :=
        fun i hlo hhi => (h i hlo hhi).symm
      exact ⟨hs 3 (by decide) (by decide), hs 4 (by decide) (by decide),
        hs 5 (by decide) (by decide), hs 6 (by decide) (by decide), hs 7 (by decide) (by decide),
        hs 8 (by decide) (by decide)⟩
    · rintro ⟨h3, h4, h5, h6, h7, h8⟩ i hlo hhi
      rcases setUp_index hlo hhi with rfl | rfl | rfl | rfl | rfl | rfl
      exacts [h3.symm, h4.symm, h5.symm, h6.symm, h7.symm, h8.symm]
  rw [hsix]
  simp [setUpCommands, Line.commands, TRUSTED_ZONE_RULES, UNTRUSTED_ZONE_RULES, OUTPUT, INPUT]

theorem call_mem_log (env : Env) (w : World) (cmds : List FwCommand) :
    ⟨cmds, (env.response w.log.length).status, w.accepts env cmds⟩ ∈ (w.call env cmds).log := by
  rw [call_log]
  exact List.mem_cons_self

theorem mem_log_call {call : Call} (h : call ∈ w.log) : call ∈ (w.call env cmds).log := by
  rw [call_log]
  exact List.mem_cons_of_mem _ h

/-- A command that names another chain. -/
theorem chain_ne {c d : String} {cmd : FwCommand} (hc : cmd.chain = some c) (hne : c ≠ d) :
    ∀ cmd' ∈ [cmd], cmd'.chain ≠ some d := by
  intro cmd' hmem hd
  obtain rfl := List.mem_singleton.mp hmem
  exact hne (Option.some.inj (hc.symm.trans hd))

theorem Holds.list {c : String} {r : FwRule} (h : Holds w.rules c r) :
    Holds (w.call env [.list]).rules c r := by
  apply h.call
  intro cmd hmem
  obtain rfl := List.mem_singleton.mp hmem
  exact (Option.some_ne_none c).symm

section AddRules

variable {chain zone : String} {jump : FwRule} {v : Verdict}

theorem Holds.addRules {c : String} {r : FwRule} (h : Holds w.rules c r) (hchain : chain ≠ c)
    (hzone : zone ≠ c) :
    Holds (w.addRules env (.iptables [.append chain jump]) zone v).rules c r :=
  (h.call (chain_ne rfl hchain)).call (chain_ne rfl hzone)

theorem holds_addRules (hne : zone ≠ chain) (hjump : w.accepts env [.append chain jump] = true)
    (hverdict : (w.call env [.append chain jump]).accepts env
      [.append zone ⟨.any, .verdict v⟩] = true) :
    Holds (w.addRules env (.iptables [.append chain jump]) zone v).rules chain jump ∧
      Holds (w.addRules env (.iptables [.append chain jump]) zone v).rules zone
        ⟨.any, .verdict v⟩ :=
  ⟨(holds_of_append_accepts hjump).call (chain_ne rfl hne), holds_of_append_accepts hverdict⟩

end AddRules

/-- With an interface that is one word the set-up makes its six commands. -/
theorem setUp_of_oneWord (hword : env.OneWord cfg.fwAttrInterface) (w : World) :
    w.setUp env cfg =
      ((w.blocked env cfg).addRules env (.iptables [.append INPUT (acceptRule cfg)])
        TRUSTED_ZONE_RULES .accept).call env [.list] := by
  rw [World.setUp, World.accepted, acceptLine_of_oneWord hword]

/-- With all six calls returning 0 in an honest environment, the rules are
there. -/
theorem installed_setUp {rules : Rules} (hword : env.OneWord cfg.fwAttrInterface)
    (hadm : ∀ call ∈ (World.setUp env ⟨rules, []⟩ cfg).log, call.status = 0 → call.accepted = true)
    (h0 : ∀ i, 3 ≤ i → i < 9 → (env.response i).status = 0) :
    Installed (World.setUp env ⟨rules, []⟩ cfg).rules cfg := by
  let w : World := ⟨rules, []⟩
  rw [setUp_of_oneWord hword] at hadm ⊢
  have houtput : (w.newTrusted env).accepts env [.append OUTPUT (blockRule cfg)] = true :=
    hadm _ (mem_log_call (mem_log_call (mem_log_call (mem_log_call (call_mem_log ..)))))
      (h0 5 (by decide) (by decide))
  have hreject : ((w.newTrusted env).call env [.append OUTPUT (blockRule cfg)]).accepts env
      [.append UNTRUSTED_ZONE_RULES ⟨.any, .verdict .reject⟩] = true :=
    hadm _ (mem_log_call (mem_log_call (mem_log_call (call_mem_log ..))))
      (h0 6 (by decide) (by decide))
  have hinput : (w.blocked env cfg).accepts env [.append INPUT (acceptRule cfg)] = true :=
    hadm _ (mem_log_call (mem_log_call (call_mem_log ..))) (h0 7 (by decide) (by decide))
  have haccept : ((w.blocked env cfg).call env [.append INPUT (acceptRule cfg)]).accepts env
      [.append TRUSTED_ZONE_RULES ⟨.any, .verdict .accept⟩] = true :=
    hadm _ (mem_log_call (call_mem_log ..)) (h0 8 (by decide) (by decide))
  obtain ⟨hblock, hrej⟩ := holds_addRules (by decide) houtput hreject
  obtain ⟨hjump, hacc⟩ := holds_addRules (by decide) hinput haccept
  exact ⟨(hblock.addRules (by decide) (by decide)).list,
    (hrej.addRules (by decide) (by decide)).list, hjump.list, hacc.list⟩

/-- **Exactly when `start` keeps its promise**: `system` failed at one of the
six calls, or the interface is one word to the shell and all six returned 0. -/
theorem start_iff (env : Env) (cfg : FwConfigAttrs) (rules : Rules)
    (hadm : Admissible env cfg rules) :
    StartSafe env cfg rules ↔
      (∃ i, 3 ≤ i ∧ i < 9 ∧ (env.response i).status < 0) ∨
        env.OneWord cfg.fwAttrInterface ∧
          ∀ i, 3 ≤ i → i < 9 → (env.response i).status = 0 := by
  by_cases hfail : ∃ i, 3 ≤ i ∧ i < 9 ∧ (env.response i).status < 0
  · obtain ⟨i, h3, h9, hi⟩ := hfail
    obtain ⟨w, hw⟩ : ∃ w, start env cfg ⟨rules, []⟩ = (.returned (-1), w) :=
      start_of_fails h3 h9 hi
    refine iff_of_true ?_ (.inl ⟨i, h3, h9, hi⟩)
    unfold StartSafe
    rw [hw]
    show (-1 : ℤ) ≠ 0
    decide
  · -- no call failed, so the threads are created, and what counts are the statuses
    have hthreads : start env cfg ⟨rules, []⟩ = (.threads, World.setUp env ⟨rules, []⟩ cfg) :=
      start_threads fun i h3 h9 hi => hfail ⟨i, h3, h9, hi⟩
    rw [or_iff_right hfail]
    unfold Admissible at hadm
    unfold StartSafe
    rw [hthreads] at hadm ⊢
    show _ ∧ Installed _ cfg ↔ _
    rw [setUpCommands_iff]
    exact ⟨fun h => h.1, fun h0 => ⟨h0, installed_setUp h0.1 hadm h0.2⟩⟩

/-! ### A mask that iptables refuses -/

/-- The chains of a fresh host, empty. -/
def emptyRules : Rules := ((AList.insert INPUT [] ∅).insert "FORWARD" []).insert OUTPUT []

/-- What iptables takes: no mask is longer than an address. -/
def maskAtMost32 : Criteria → Bool
  | .any => true
  | .destination net | .source _ net => net.netmask.toNat ≤ 32

/-- Every command line is run; the calls return these numbers. -/
def envOf (status : List ℤ) : Env where
  valid := maskAtMost32
  expand := fun word => [word]
  shell := fun _ _ rules => rules
  response := fun i => ⟨true, status.getD i 0⟩

/-- eno1, and the networks 192.168.0.0 and 192.168.1.0 with these masks. -/
def cfgOf (untrusted trusted : BitVec 32) : FwConfigAttrs :=
  ⟨⟨[101, 110, 111, 49], by decide⟩, ⟨0xA8C0, untrusted⟩, ⟨0x1A8C0, trusted⟩⟩

/-- On a fresh host the three calls of `fw_ip_tables_flush` are refused. -/
theorem start_iff_fresh : StartSafe (envOf [256, 256, 256]) (cfgOf 24 24) emptyRules := by
  have hword : (envOf [256, 256, 256]).OneWord (cfgOf 24 24).fwAttrInterface :=
    ⟨by decide, by decide⟩
  have hadm : Admissible (envOf [256, 256, 256]) (cfgOf 24 24) emptyRules := by decide +kernel
  refine (start_iff _ _ _ hadm).mpr (.inr ⟨hword, fun i h3 h9 => ?_⟩)
  rcases setUp_index h3 h9 with rfl | rfl | rfl | rfl | rfl | rfl
  all_goals rfl

/-- The block rule is refused. -/
def refusing : Env := envOf [256, 256, 256, 0, 0, 512]

/-- With the untrusted mask 33 the block rule is refused (status 512), and
`start` goes on to the threads. -/
theorem not_startSafe_mask33 :
    ¬ ∀ env cfg rules, Admissible env cfg rules → StartSafe env cfg rules := by
  intro h
  have hsafe := h refusing (cfgOf 33 24) emptyRules (by decide +kernel)
  have hthreads : start refusing (cfgOf 33 24) ⟨emptyRules, []⟩ =
      (.threads, World.setUp refusing ⟨emptyRules, []⟩ (cfgOf 33 24)) := by
    apply start_threads
    intro i h3 h9
    rcases setUp_index h3 h9 with rfl | rfl | rfl | rfl | rfl | rfl
    all_goals decide
  unfold StartSafe at hsafe
  rw [hthreads] at hsafe
  have h5 := ((setUpCommands_iff _ _ _).mp hsafe.1).2 5 (by decide) (by decide)
  exact absurd h5 (by decide)

end SecuritySystem.Firewall
