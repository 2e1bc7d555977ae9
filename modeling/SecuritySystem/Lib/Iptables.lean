/-
SecuritySystem/Lib/Iptables.lean

Packet-filter rulesets and the commands that edit them.

A ruleset maps chain names to lists of rules; a rule has criteria and a target,
which is a verdict or a jump to another chain.  A command is refused, and then
changes nothing, in the cases the tool documents: flushing or appending to a
chain that does not exist, creating one that does, deleting one that is
missing, not empty or the target of a jump, appending a rule whose criteria
are invalid or whose target chain is missing.  `execAll` is a sequence joined
by `&&`.

The lemmas say what a command does to the chain it names and that it leaves
every other chain alone (`lookup_execAll_of_ne`); with these no proof about a
sequence of commands has to look into `exec`.
-/
import Mathlib.Data.List.AList

namespace Iptables

variable {N V M : Type} [DecidableEq N]

/-- Where a rule sends a packet: to another chain, or to its end. -/
inductive Target (N V : Type)
  | jump (c : N)
  | verdict (v : V)
deriving DecidableEq

/-- What a packet must meet, and where it goes then. -/
structure Rule (N V M : Type) where
  criteria : M
  target : Target N V
deriving DecidableEq

/-- Chains by name, each with its rules in order. -/
abbrev Ruleset (N V M : Type) := AList fun _ : N => List (Rule N V M)

/-- The commands `-F`, `-N`, `-X`, `-A` and `-L`. -/
inductive Command (N V M : Type)
  | flush (c : N)
  | newChain (c : N)
  | deleteChain (c : N)
  | append (c : N) (r : Rule N V M)
  | list

/-- The chain that a command may change. -/
def Command.chain : Command N V M → Option N
  | .flush c | .newChain c | .deleteChain c | .append c _ => some c
  | .list => none

/-- The rule jumps to the chain. -/
def Rule.jumpsTo (r : Rule N V M) (c : N) : Bool :=
  match r.target with
  | .jump d => d = c
  | .verdict _ => false

/-- The rules that jump to `c`, with the chains they are in. -/
def jumps (rs : Ruleset N V M) (c : N) : List (N × Rule N V M) :=
  rs.entries.flatMap fun e => (e.2.filter (·.jumpsTo c)).map fun r => (e.1, r)

/-- A jump needs its chain. -/
def Rule.TargetIn (rs : Ruleset N V M) (r : Rule N V M) : Prop :=
  match r.target with
  | .jump d => d ∈ rs
  | .verdict _ => True

instance (rs : Ruleset N V M) (r : Rule N V M) : Decidable (r.TargetIn rs) := by
  unfold Rule.TargetIn
  split <;> infer_instance

section Exec

variable (valid : M → Bool)

/-- One command; nothing if it is refused. -/
def exec (rs : Ruleset N V M) : Command N V M → Option (Ruleset N V M)
  | .flush c => if c ∈ rs then some (rs.insert c []) else none
  | .newChain c => if c ∈ rs then none else some (rs.insert c [])
  | .deleteChain c =>
    match rs.lookup c with
    | some [] => if jumps rs c = [] then some (rs.erase c) else none
    | _ => none
  | .append c r =>
    match rs.lookup c with
    | some l =>
      if valid r.criteria ∧ r.TargetIn rs then some (rs.insert c (l ++ [r])) else none
    | none => none
  | .list => some rs

/-- Commands joined by `&&`: the ruleset behind them, and whether all were
accepted. -/
def execAll : List (Command N V M) → Ruleset N V M → Ruleset N V M × Bool
  | [], rs => (rs, true)
  | cmd :: cmds, rs =>
    match exec valid rs cmd with
    | some rs' => execAll cmds rs'
    | none => (rs, false)

end Exec

variable {valid : M → Bool} {rs rs' : Ruleset N V M} {c d : N} {r : Rule N V M}

/-! ### Jumps -/

theorem Rule.jumpsTo_iff : r.jumpsTo c = true ↔ r.target = .jump c := by
  unfold Rule.jumpsTo
  cases r.target with
  | jump e => simp
  | verdict v => simp

theorem mem_jumps :
    (d, r) ∈ jumps rs c ↔ ∃ l, rs.lookup d = some l ∧ r ∈ l ∧ r.target = .jump c := by
  unfold jumps
  rw [List.mem_flatMap]
  constructor
  · rintro ⟨⟨e, l⟩, he, hr⟩
    obtain ⟨r', hr', heq⟩ := List.mem_map.mp hr
    obtain ⟨hmem, hj⟩ := List.mem_filter.mp hr'
    obtain ⟨rfl, rfl⟩ := Prod.mk.inj heq
    exact ⟨l, AList.mem_lookup_iff.mpr he, hmem, Rule.jumpsTo_iff.mp hj⟩
  · rintro ⟨l, hl, hmem, hj⟩
    refine ⟨⟨d, l⟩, AList.mem_lookup_iff.mp hl, List.mem_map.mpr ⟨r, ?_, rfl⟩⟩
    exact List.mem_filter.mpr ⟨hmem, Rule.jumpsTo_iff.mpr hj⟩

/-! ### When a command is accepted -/

theorem exec_flush_iff : exec valid rs (.flush c) = some rs' ↔ c ∈ rs ∧ rs' = rs.insert c [] := by
  show (if c ∈ rs then some (rs.insert c []) else none) = some rs' ↔ _
  rw [Option.ite_none_right_eq_some, Option.some_inj, eq_comm]

theorem exec_newChain_iff :
    exec valid rs (.newChain c) = some rs' ↔ c ∉ rs ∧ rs' = rs.insert c [] := by
  show (if c ∈ rs then none else some (rs.insert c [])) = some rs' ↔ _
  rw [Option.ite_none_left_eq_some, Option.some_inj, eq_comm]

theorem exec_deleteChain_iff :
    exec valid rs (.deleteChain c) = some rs' ↔
      rs.lookup c = some [] ∧ jumps rs c = [] ∧ rs' = rs.erase c := by
  show (match rs.lookup c with
    | some [] => if jumps rs c = [] then some (rs.erase c) else none
    | _ => none) = some rs' ↔ _
  cases rs.lookup c with
  | none => simp
  | some l =>
    cases l with
    | nil => simp [eq_comm]
    | cons r l => simp

theorem exec_append_iff :
    exec valid rs (.append c r) = some rs' ↔
      ∃ l, rs.lookup c = some l ∧ valid r.criteria = true ∧ r.TargetIn rs ∧
        rs' = rs.insert c (l ++ [r]) := by
  show (match rs.lookup c with
    | some l => if valid r.criteria ∧ r.TargetIn rs then some (rs.insert c (l ++ [r])) else none
    | none => none) = some rs' ↔ _
  cases rs.lookup c with
  | none => simp
  | some l =>
    show (if valid r.criteria ∧ r.TargetIn rs then some (rs.insert c (l ++ [r])) else none) =
      some rs' ↔ _
    rw [Option.ite_none_right_eq_some, Option.some_inj]
    constructor
    · rintro ⟨⟨hv, ht⟩, rfl⟩
      exact ⟨l, rfl, hv, ht, rfl⟩
    · rintro ⟨l', hl, hv, ht, rfl⟩
      obtain rfl := Option.some.inj hl
      exact ⟨⟨hv, ht⟩, rfl⟩

/-! ### The other chains -/

/-- A command changes the chain it names only. -/
theorem lookup_exec_of_ne {cmd : Command N V M} (h : exec valid rs cmd = some rs')
    (hne : cmd.chain ≠ some c) : rs'.lookup c = rs.lookup c := by
  have hcd : ∀ d, cmd.chain = some d → c ≠ d := fun d hd he => hne (he ▸ hd)
  cases cmd with
  | flush d =>
    obtain ⟨-, rfl⟩ := exec_flush_iff.mp h
    exact AList.lookup_insert_ne (hcd d rfl)
  | newChain d =>
    obtain ⟨-, rfl⟩ := exec_newChain_iff.mp h
    exact AList.lookup_insert_ne (hcd d rfl)
  | deleteChain d =>
    obtain ⟨-, -, rfl⟩ := exec_deleteChain_iff.mp h
    exact AList.lookup_erase_ne (hcd d rfl)
  | append d r =>
    obtain ⟨l, -, -, -, rfl⟩ := exec_append_iff.mp h
    exact AList.lookup_insert_ne (hcd d rfl)
  | list =>
    obtain rfl := Option.some.inj h
    rfl

theorem lookup_execAll_of_ne {cmds : List (Command N V M)}
    (hne : ∀ cmd ∈ cmds, cmd.chain ≠ some c) :
    (execAll valid cmds rs).1.lookup c = rs.lookup c := by
  induction cmds generalizing rs with
  | nil => rfl
  | cons cmd cmds ih =>
    unfold execAll
    cases h : exec valid rs cmd with
    | none => rfl
    | some rs' =>
      show (execAll valid cmds rs').1.lookup c = rs.lookup c
      rw [ih fun cmd' hc => hne cmd' (List.mem_cons_of_mem cmd hc)]
      exact lookup_exec_of_ne h (hne cmd List.mem_cons_self)

theorem mem_iff_of_lookup_eq (h : rs'.lookup c = rs.lookup c) : c ∈ rs' ↔ c ∈ rs := by
  rw [← AList.lookup_isSome, h, AList.lookup_isSome]

/-- Only `-X` takes a chain away. -/
theorem mem_exec {cmd : Command N V M} (h : exec valid rs cmd = some rs')
    (hne : cmd ≠ .deleteChain c) (hc : c ∈ rs) : c ∈ rs' := by
  cases cmd with
  | flush d =>
    obtain ⟨-, rfl⟩ := exec_flush_iff.mp h
    exact (AList.mem_insert rs).mpr (.inr hc)
  | newChain d =>
    obtain ⟨-, rfl⟩ := exec_newChain_iff.mp h
    exact (AList.mem_insert rs).mpr (.inr hc)
  | deleteChain d =>
    obtain ⟨-, -, rfl⟩ := exec_deleteChain_iff.mp h
    exact AList.mem_erase.mpr ⟨fun heq => hne (congrArg Command.deleteChain heq.symm), hc⟩
  | append d r =>
    obtain ⟨l, -, -, -, rfl⟩ := exec_append_iff.mp h
    exact (AList.mem_insert rs).mpr (.inr hc)
  | list =>
    obtain rfl := Option.some.inj h
    exact hc

/-! ### The chain a command names -/

theorem execAll_singleton (cmd : Command N V M) :
    execAll valid [cmd] rs = ((exec valid rs cmd).getD rs, (exec valid rs cmd).isSome) := by
  unfold execAll
  cases exec valid rs cmd with
  | none => rfl
  | some rs' => rfl

/-- An accepted single command. -/
theorem exec_eq_some_of_accepted {cmd : Command N V M} (h : (execAll valid [cmd] rs).2 = true) :
    exec valid rs cmd = some (execAll valid [cmd] rs).1 := by
  rw [execAll_singleton] at h ⊢
  obtain ⟨rs', hrs'⟩ := Option.isSome_iff_exists.mp h
  rw [hrs']
  rfl

/-- Accepted or not, behind `--new` there is such a chain. -/
theorem mem_execAll_newChain (c : N) : c ∈ (execAll valid [.newChain c] rs).1 := by
  rw [execAll_singleton]
  cases h : exec valid rs (.newChain c) with
  | some rs' =>
    obtain ⟨-, rfl⟩ := exec_newChain_iff.mp h
    exact (AList.mem_insert rs).mpr (.inl rfl)
  | none =>
    by_contra hc
    have hc' : c ∉ rs := hc
    rw [exec_newChain_iff.mpr ⟨hc', rfl⟩] at h
    cases h

/-- What `-A` does to its chain. -/
theorem lookup_execAll_append {l : List (Rule N V M)} (hl : rs.lookup c = some l)
    (ht : r.TargetIn rs) :
    (execAll valid [.append c r] rs).1.lookup c =
      some (if valid r.criteria then l ++ [r] else l) := by
  rw [execAll_singleton]
  by_cases hv : valid r.criteria = true
  · rw [if_pos hv, exec_append_iff.mpr ⟨l, hl, hv, ht, rfl⟩]
    exact AList.lookup_insert rs
  · have hnone : exec valid rs (.append c r) = none := by
      rw [Option.eq_none_iff_forall_ne_some]
      intro rs' h
      obtain ⟨-, -, hv', -⟩ := exec_append_iff.mp h
      exact hv hv'
    rw [if_neg hv, hnone]
    exact hl

/-- An accepted `-A` has its rule at the end of its chain. -/
theorem lookup_of_append_accepted (h : (execAll valid [.append c r] rs).2 = true) :
    ∃ l, (execAll valid [.append c r] rs).1.lookup c = some (l ++ [r]) := by
  obtain ⟨l, -, -, -, heq⟩ := exec_append_iff.mp (exec_eq_some_of_accepted h)
  rw [heq]
  exact ⟨l, AList.lookup_insert rs⟩

/-! ### Sequences that end in a flush -/

theorem execAll_cons_of_some {cmd : Command N V M} (h : exec valid rs cmd = some rs')
    (cmds : List (Command N V M)) :
    execAll valid (cmd :: cmds) rs = execAll valid cmds rs' := by
  rw [execAll.eq_def]
  simp only [h]

theorem execAll_cons_of_none {cmd : Command N V M} (h : exec valid rs cmd = none)
    (cmds : List (Command N V M)) : execAll valid (cmd :: cmds) rs = (rs, false) := by
  rw [execAll.eq_def]
  simp only [h]

theorem execAll_concat (cmds : List (Command N V M)) (cmd : Command N V M) :
    execAll valid (cmds ++ [cmd]) rs =
      if (execAll valid cmds rs).2 then execAll valid [cmd] (execAll valid cmds rs).1
      else execAll valid cmds rs := by
  induction cmds generalizing rs with
  | nil => rfl
  | cons cmd' cmds ih =>
    rw [List.cons_append]
    cases h : exec valid rs cmd' with
    | none =>
      rw [execAll_cons_of_none h, execAll_cons_of_none h]
      rfl
    | some rs' => rw [execAll_cons_of_some h, execAll_cons_of_some h, ih]

/-- Flushes are accepted when the chains exist. -/
theorem execAll_flushes_iff {cs : List N} :
    (execAll valid (cs.map .flush) rs).2 = true ↔ ∀ c ∈ cs, c ∈ rs := by
  induction cs generalizing rs with
  | nil => exact iff_of_true rfl fun c hc => absurd hc List.not_mem_nil
  | cons c cs ih =>
    rw [List.map_cons, List.forall_mem_cons]
    by_cases hc : c ∈ rs
    · rw [execAll_cons_of_some (exec_flush_iff.mpr ⟨hc, rfl⟩), and_iff_right hc, ih]
      refine forall₂_congr fun d _ => ?_
      rw [AList.mem_insert]
      -- the flush of `c` makes no chain: `c` was there
      exact or_iff_right_of_imp fun hd => hd ▸ hc
    · have hnone : exec valid rs (.flush c) = none := if_neg hc
      rw [execAll_cons_of_none hnone]
      exact iff_of_false Bool.false_ne_true fun h => hc h.1

/-- The chain that is flushed last is emptied if all commands before are
accepted too, and else left alone. -/
theorem lookup_execAll_concat_flush {cmds : List (Command N V M)}
    (hne : ∀ cmd ∈ cmds, cmd.chain ≠ some c) :
    (execAll valid (cmds ++ [.flush c]) rs).1.lookup c =
      if (execAll valid (cmds ++ [.flush c]) rs).2 then some [] else rs.lookup c := by
  rw [execAll_concat]
  by_cases hall : (execAll valid cmds rs).2 = true
  · have hrs : (execAll valid cmds rs).1.lookup c = rs.lookup c := lookup_execAll_of_ne hne
    rw [if_pos hall, execAll_singleton, ← hrs]
    cases h : exec valid (execAll valid cmds rs).1 (.flush c) with
    | none => rfl
    | some rs' =>
      obtain ⟨-, rfl⟩ := exec_flush_iff.mp h
      exact AList.lookup_insert _
  · rw [if_neg hall, if_neg hall]
    exact lookup_execAll_of_ne hne

/-- `-A` appends its rule or changes nothing. -/
theorem lookup_execAll_append_cases {l : List (Rule N V M)} (hl : rs.lookup c = some l) :
    (execAll valid [.append c r] rs).1.lookup c = some (l ++ [r]) ∨
      (execAll valid [.append c r] rs).1.lookup c = some l := by
  rw [execAll_singleton]
  cases h : exec valid rs (.append c r) with
  | none => exact .inr hl
  | some rs' =>
    obtain ⟨l', hl', -, -, rfl⟩ := exec_append_iff.mp h
    obtain rfl := Option.some.inj (hl.symm.trans hl')
    exact .inl (AList.lookup_insert rs)

end Iptables
